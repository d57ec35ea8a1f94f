import SolidScript.Token

namespace SolidScript.Lexical

/-- Space, tab, carriage return and line feed. -/
def isBlank (c : Char) : Bool := c = ' ' || c = '\t' || c = '\r' || c = '\n'

/-- The characters that end a line. -/
def isBreak (c : Char) : Bool := c = '\r' || c = '\n'

/-- What a name begins with: an ASCII letter or an underscore. -/
def isNameStart (c : Char) : Bool := c.isAlpha || c = '_'

/-- What a name goes on with: also ASCII digits. -/
def isNamePart (c : Char) : Bool := c.isAlphanum || c = '_'

/-- How many leading characters satisfy `p`. -/
def run (p : Char → Bool) (cs : List Char) : Nat := (cs.takeWhile p).length

/-- Blanks and line breaks. -/
def blanks (cs : List Char) : Nat := run isBlank cs

/-- Two slashes and the rest of the line. -/
def lineComment : List Char → Nat
  | '/' :: '/' :: cs => 2 + run (!isBreak ·) cs
  | _ => 0

/-- The inside of a block comment with its closing mark, given for every end of the text: for the
text itself first, then for the text without its first character, and so on down to the empty text.
A nested comment is taken whole if it closes. If it does not, its opening mark is two plain
characters, and the second of them may belong to a closing mark: then the enclosing comment ends
there. -/
def commentBodies : List Char → List (Option Nat)
  | [] => [none]
  | c :: cs =>
    let shorter := commentBodies cs
    let body (n : Nat) : Option Nat := shorter[n]?.join
    let here :=
      match c, cs with
      | '*', '/' :: _ => some 2
      | '/', '*' :: inner =>
        match body 1 with
        | some k => (body (1 + k)).map (2 + k + ·)
        | none => if inner.head? = some '/' then some 3 else none
      | _, _ => (body 0).map (1 + ·)
    here :: shorter

/-- The inside of a block comment with its closing mark. -/
def commentBody (cs : List Char) : Option Nat := (commentBodies cs).head?.join

/-- A comment between marks; such comments nest. -/
def blockComment : List Char → Nat
  | '/' :: '*' :: cs => ((commentBody cs).map (2 + ·)).getD 0
  | _ => 0

/-- A comment of either form. -/
def comment (cs : List Char) : Nat := max (lineComment cs) (blockComment cs)

/-- Digits with an optional point; at least one digit on either side of it. -/
def mantissa (cs : List Char) : Nat :=
  let whole := run Char.isDigit cs
  match cs.drop whole with
  | '.' :: rest =>
    let fraction := run Char.isDigit rest
    if whole = 0 ∧ fraction = 0 then 0 else whole + 1 + fraction
  | _ => whole

/-- One for a sign, zero otherwise. -/
def sign : List Char → Nat
  | '+' :: _ => 1
  | '-' :: _ => 1
  | _ => 0

/-- An exponent mark, an optional sign and at least one digit. -/
def exponent : List Char → Nat
  | [] => 0
  | c :: cs =>
    let digits := run Char.isDigit (cs.drop (sign cs))
    if (c = 'e' ∨ c = 'E') ∧ 0 < digits then 1 + sign cs + digits else 0

/-- A number: a mantissa and an optional exponent. -/
def number (cs : List Char) : Nat :=
  let m := mantissa cs
  if m = 0 then 0 else m + exponent (cs.drop m)

/-- The inside of a string with its closing quote. A backslash protects the next character. -/
def stringBody : List Char → Option Nat
  | [] => none
  | '"' :: _ => some 1
  | '\\' :: _ :: cs => (stringBody cs).map (2 + ·)
  | _ :: cs => (stringBody cs).map (1 + ·)

/-- A string between double quotes; it may run over several lines. -/
def quoted : List Char → Nat
  | '"' :: cs => ((stringBody cs).map (1 + ·)).getD 0
  | _ => 0

/-- A name. -/
def name : List Char → Nat
  | [] => 0
  | c :: cs => if isNameStart c then 1 + run isNamePart cs else 0

/-- A dollar sign directly before a name. -/
def specialName : List Char → Nat
  | '$' :: cs => if name cs = 0 then 0 else 1 + name cs
  | _ => 0

/-- The names that the language keeps for itself. -/
def keywords : List String := ["true", "false", "undef", "if", "else", "module", "function"]

/-- A name that is a keyword. -/
def keyword (cs : List Char) : Nat :=
  if String.ofList (cs.take (name cs)) ∈ keywords then name cs else 0

/-- Punctuation of two characters. -/
def pairs : List (List Char) :=
  [['<', '='], ['>', '='], ['=', '='], ['!', '='], ['&', '&'], ['|', '|'], ['<', '<'], ['>', '>']]

/-- Punctuation of one character. -/
def singles : List Char := "=+-*/%<>!&|^?:()[]\x7b\x7d,;".toList

/-- Punctuation, the longer first. The opening mark of a comment is none: where the rule for
comments has passed it by, it never closes. -/
def punct : List Char → Nat
  | '/' :: '*' :: _ => 0
  | [] => 0
  | c :: cs => if c :: cs.take 1 ∈ pairs then 2 else if c ∈ singles then 1 else 0

/-- The rules in the order in which they are tried. -/
def rules : List (TokenKind × (List Char → Nat)) :=
  [(.whitespace, blanks), (.comment, comment), (.number, number), (.string, quoted),
    (.specialIdentifier, specialName), (.keyword, keyword), (.identifier, name), (.punct, punct)]

/-- The first rule that takes something from the front of the text, with what it takes. -/
def scan (cs : List Char) : Option (TokenKind × Nat) :=
  rules.findSome? fun (kind, rule) =>
    let n := rule cs
    if 0 < n then some (kind, n) else none

end SolidScript.Lexical
