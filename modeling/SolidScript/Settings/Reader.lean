import SolidScript.Number.Decimal
import SolidScript.Settings
import SolidScript.Text.Escape

/-!
Reading settings from text. The text is one record in parentheses, for example

    (builtins: [echo], variables: { "$fn": 32.0 })

Blanks and comments may stand between any two parts. Fields may come in any order, but not twice;
those that are left out keep their standard value, and those that are not known are passed over,
whatever value they have.
-/

namespace SolidScript.Settings

/-- Reads an `α` from the front of a text, or fails. -/
abbrev Reader := StateT (List Char) Option

namespace Reader

/-- Passes over the rest of a block comment that has `depth` others around it. -/
def skipBlock : Nat → List Char → Option (List Char)
  | _, [] => none
  | 0, '*' :: '/' :: cs => some cs
  | depth + 1, '*' :: '/' :: cs => skipBlock depth cs
  | depth, '/' :: '*' :: cs => skipBlock (depth + 1) cs
  | depth, _ :: cs => skipBlock depth cs

/-- Passes over blanks and comments in a text of at most `fuel` characters. -/
def skipTrivia : Nat → List Char → Option (List Char)
  | 0, cs => some cs
  | _ + 1, [] => some []
  | fuel + 1, '/' :: '/' :: cs => skipTrivia fuel (cs.dropWhile (· ≠ '\n'))
  | fuel + 1, '/' :: '*' :: cs => do skipTrivia fuel (← skipBlock 0 cs)
  | fuel + 1, c :: cs =>
    if c = ' ' ∨ c = '\t' ∨ c = '\n' ∨ c = '\r' then skipTrivia fuel cs else some (c :: cs)

/-- Passes over blanks and comments. -/
def trivia : Reader Unit := fun cs => (skipTrivia cs.length cs).map ((), ·)

/-- The first character behind blanks and comments, which stays. -/
def peek? : Reader (Option Char) := do
  trivia
  return (← get).head?

/-- Takes the given character behind blanks and comments. -/
def symbol (c : Char) : Reader Unit := do
  trivia
  match ← get with
  | d :: cs => if c = d then set cs else failure
  | [] => failure

/-- Takes leading characters as long as they satisfy `p`; at least one has to. -/
def takeSome (p : Char → Bool) : Reader (List Char) := do
  let cs ← get
  match cs.takeWhile p with
  | [] => failure
  | taken =>
    set (cs.dropWhile p)
    return taken

/-- What a word is made of. -/
def isWordPart (c : Char) : Bool := c.isAlphanum || c = '_'

/-- A word: letters, digits and underscores, and no digit in front. -/
def word : Reader String := do
  trivia
  let cs ← takeSome isWordPart
  if cs.head?.any Char.isDigit then failure else return String.ofList cs

/-- What a numeral is made of. -/
def isNumeralPart (c : Char) : Bool :=
  c.isDigit || c = '.' || c = 'e' || c = 'E' || c = '+' || c = '-'

/-- A number: a numeral with an optional sign, or one of three words. -/
def number : Reader Float := do
  trivia
  match ← get with
  | '-' :: 'i' :: cs =>
    set ('i' :: cs)
    if (← word) = "inf" then return -Number.infinity else failure
  | c :: _ =>
    if c = 'i' ∨ c = 'N' then
      let w ← word
      if w = "inf" then return Number.infinity
      else if w = "NaN" then return Number.nan
      else failure
    else
      let cs ← takeSome isNumeralPart
      match Number.read? (String.ofList cs) with
      | some x => return x
      | none => failure
  | [] => failure

/-- The value of hexadecimal digits. -/
def ofHex? (ds : List Char) : Option Nat :=
  ds.foldlM (fun n d => (Escape.hexDigit? d).map (16 * n + ·)) 0

/-- The character that follows a backslash in a string, and what comes behind it. -/
def escaped? : List Char → Option (Char × List Char)
  | '"' :: cs => some ('"', cs)
  | '\'' :: cs => some ('\'', cs)
  | '\\' :: cs => some ('\\', cs)
  | 'n' :: cs => some ('\n', cs)
  | 'r' :: cs => some ('\r', cs)
  | 't' :: cs => some ('\t', cs)
  | 'x' :: a :: b :: cs => do
    return (Char.ofNat (← ofHex? [a, b]), cs)
  | 'u' :: '\x7b' :: cs => do
    let ds := cs.takeWhile (· ≠ '\x7d')
    if ds.length = 0 ∨ 6 < ds.length then none
    else return (← Escape.codePoint? (← ofHex? ds), (cs.dropWhile (· ≠ '\x7d')).drop 1)
  | _ => none

/-- The rest of a string of at most `fuel` characters, up to the closing quote. -/
def stringRest : Nat → List Char → Option (List Char × List Char)
  | 0, _ => none
  | _ + 1, [] => none
  | _ + 1, '"' :: cs => some ([], cs)
  | fuel + 1, '\\' :: cs => do
    let (c, cs) ← escaped? cs
    let (text, rest) ← stringRest fuel cs
    return (c :: text, rest)
  | fuel + 1, c :: cs => do
    let (text, rest) ← stringRest fuel cs
    return (c :: text, rest)

/-- A string in double quotes. -/
def string : Reader String := do
  symbol '"'
  let cs ← get
  let (text, rest) ← stringRest cs.length cs
  set rest
  return String.ofList text

/-- Items with commas between them up to the closing character. There may be a comma behind the last
one. `fuel` bounds the number of items. -/
def listUntil {α : Type} (close : Char) (item : Reader α) : Nat → Reader (List α)
  | 0 => failure
  | fuel + 1 => do
    if (← peek?) = some close then
      symbol close
      return []
    else
      let first ← item
      if (← peek?) = some ',' then
        symbol ','
        return first :: (← listUntil close item fuel)
      else
        symbol close
        return [first]

/-- The words that are values of their own. Parentheses cannot follow them. -/
def plainWords : List String := ["true", "false", "inf", "NaN", "None"]

/-- Whether a word and a colon come next, behind blanks and comments. -/
def startsField : Reader Bool := fun cs =>
  match (do let _ ← word; peek? : Reader (Option Char)) cs with
  | some (some ':', _) => some (true, cs)
  | _ => some (false, cs)

/-- Passes over a key, a colon and a value. -/
def skipEntry (key value : Reader Unit) : Reader Unit := do
  key
  symbol ':'
  value

/-- Passes over what stands in parentheses: named fields if the first item is one, otherwise
values. -/
def skipParentheses (size : Nat) (value : Reader Unit) : Reader Unit := do
  symbol '('
  if ← startsField then
    discard (listUntil ')' (skipEntry (discard word) value) size)
  else
    discard (listUntil ')' value size)

/-- Passes over a value. `inner?` passes over the values inside it; if there is none, no bracket may
be opened, and only an empty pair of parentheses is a value still. -/
def skipWith (size : Nat) (inner? : Option (Reader Unit)) : Reader Unit := do
  match ← peek?, inner? with
  | some '"', _ => discard string
  | some '[', some inner =>
    symbol '['
    discard (listUntil ']' inner size)
  | some '\x7b', some inner =>
    symbol '\x7b'
    discard (listUntil '\x7d' (skipEntry inner inner) size)
  | some '(', some inner => skipParentheses size inner
  | some '(', none =>
    symbol '('
    match ← get with
    | ')' :: cs => set cs
    | _ => failure
  | some c, _ =>
    if isWordPart c && !c.isDigit then
      let w ← word
      if (← peek?) = some '(' ∧ w ∉ plainWords then
        match inner? with
        | some inner => skipParentheses size inner
        | none => failure
    else discard number
  | none, _ => failure

/-- Passes over any value in which brackets are nested at most `depth` deep. `size` bounds the
number of items in each. -/
def skipValue (size : Nat) : Nat → Reader Unit
  | 0 => skipWith size none
  | depth + 1 => skipWith size (some (skipValue size depth))

/-- How deep brackets may be nested inside a field. -/
def maxDepth : Nat := 63

/-- The name of a built-in module. -/
def builtin : Reader Builtin := do
  match Builtin.ofName? (← word) with
  | some b => return b
  | none => failure

/-- A variable and its value. -/
def variableEntry : Reader (String × Float) := do
  let name ← string
  symbol ':'
  return (name, ← number)

/-- A field of the settings. -/
inductive Field where
  | builtins (value : List Builtin)
  | presets (value : Names Float)
  | unknown

/-- A field with its name, in a text of at most `fuel` characters. -/
def field (fuel : Nat) : Reader Field := do
  let name ← word
  symbol ':'
  if name = "builtins" then
    symbol '['
    return .builtins (← listUntil ']' builtin fuel)
  else if name = "variables" then
    symbol '\x7b'
    let entries ← listUntil '\x7d' variableEntry fuel
    return .presets (entries.foldl (fun names (name, value) => names.insert name value) [])
  else
    skipValue fuel maxDepth
    return .unknown

/-- The standard value for a field that is left out; none if the field is there twice. -/
def atMostOnce {α : Type} (standard : α) : List α → Option α
  | [] => some standard
  | [value] => some value
  | _ => none

/-- The settings that fields make. -/
def assemble (fields : List Field) : Option Settings := do
  let builtins ← atMostOnce Settings.standard.builtins <| fields.filterMap fun
    | .builtins value => some value
    | _ => none
  let presets ← atMostOnce Settings.standard.presets <| fields.filterMap fun
    | .presets value => some value
    | _ => none
  return ⟨builtins, presets⟩

/-- A whole text of at most `fuel` characters. The record may have its name in front. -/
def settings (fuel : Nat) : Reader Settings := do
  if (← peek?) ≠ some '(' then
    if (← word) ≠ "RuntimeConfig" then failure
  symbol '('
  let fields ← listUntil ')' (field fuel) fuel
  trivia
  if (← get).isEmpty then assemble fields else failure

end Reader

/-- Reads settings; none if the text is not a record of settings. -/
def read? (text : String) : Option Settings :=
  let cs := text.toList
  ((Reader.settings cs.length).run cs).map Prod.fst

end SolidScript.Settings
