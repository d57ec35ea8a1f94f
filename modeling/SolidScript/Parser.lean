import SolidScript.Token

namespace SolidScript

/-- What an attempt to read comes to: a value with the tokens behind it unless the attempt has
failed, and the fewest tokens that were left where something else than the next token, or the end,
was asked for. Fewer tokens left means further on, so this is the furthest failure of the attempt,
whether or not another alternative has been taken instead. -/
structure Attempt (α : Type) where
  value? : Option (α × List Token)
  left? : Option Nat

/-- Attempts to read an `α` from the front of a list of tokens. -/
def Parser (α : Type) : Type := List Token → Attempt α

namespace Attempt

/-- The attempt after another one that has failed with this many tokens left, if it has failed
anywhere. -/
def also {α : Type} (left? : Option Nat) (a : Attempt α) : Attempt α :=
  ⟨a.value?, Option.merge min left? a.left?⟩

end Attempt

instance : Monad Parser where
  pure value := fun ts => ⟨some (value, ts), none⟩
  bind p next := fun ts =>
    match p ts with
    | ⟨some (value, rest), left?⟩ => (next value rest).also left?
    | ⟨none, left?⟩ => ⟨none, left?⟩

namespace Parser

/-- One token that satisfies `p`. -/
def token (p : Token → Bool) : Parser Token
  | [] => ⟨none, some 0⟩
  | t :: ts => if p t then ⟨some (t, ts), none⟩ else ⟨none, some (ts.length + 1)⟩

/-- The given punctuation. -/
def punct (symbol : String) : Parser Token := token (·.isPunct symbol)

/-- The given keyword. -/
def keyword (word : String) : Parser Token := token (·.isKeyword word)

/-- A plain or a special identifier. -/
def name : Parser Token := token (·.isName)

/-- The next token, which is not taken. -/
def peek : Parser Token
  | [] => ⟨none, some 0⟩
  | t :: ts => ⟨some (t, t :: ts), none⟩

/-- The end of the tokens. -/
def atEnd : Parser Unit
  | [] => ⟨some ((), []), none⟩
  | _ :: ts => ⟨none, some (ts.length + 1)⟩

/-- What `f` makes of the value that `p` reads. Where it makes nothing of it, this fails at the
place where the value begins. -/
def select {α β : Type} (f : α → Option β) (p : Parser α) : Parser β := fun ts =>
  match p ts with
  | ⟨some (value, rest), left?⟩ =>
    match f value with
    | some result => ⟨some (result, rest), left?⟩
    | none => ⟨none, Option.merge min left? (some ts.length)⟩
  | ⟨none, left?⟩ => ⟨none, left?⟩

/-- Reads with `p`, or from the same place with `q` if `p` fails. -/
def orElse {α : Type} (p q : Parser α) : Parser α := fun ts =>
  match p ts with
  | ⟨some found, left?⟩ => ⟨some found, left?⟩
  | ⟨none, left?⟩ => (q ts).also left?

/-- Reads with the first of the alternatives that does not fail. None of the later ones is tried
then, also if what comes behind fails. -/
def choice {α : Type} : List (Parser α) → Parser α
  | [] => fun _ => ⟨none, none⟩
  | p :: ps => orElse p (choice ps)

/-- The symbol of one of the operators, tried in order. -/
def oneOf {α : Type} (symbol : α → String) (ops : List α) : Parser (α × Token) :=
  choice (ops.map fun op => do return (op, ← punct (symbol op)))

/-- Reads with `p`, or takes nothing if `p` fails. -/
def orNot {α : Type} (p : Parser α) : Parser (Option α) :=
  orElse (do return some (← p)) (pure none)

/-- Reads with `p` at most `n` times, until it fails. -/
def repeatedUpTo {α : Type} (p : Parser α) : Nat → Parser (List α)
  | 0 => pure []
  | n + 1 => do
    match ← orNot p with
    | some value => return value :: (← repeatedUpTo p n)
    | none => return []

/-- Reads with `p` until it fails. What it has taken by then is not given back. Whatever `p` reads
has at least one token, so that it cannot be read more often than there are tokens. -/
def repeated {α : Type} (p : Parser α) : Parser (List α) := fun ts =>
  repeatedUpTo p (ts.length + 1) ts

/-- At most `n` items with commas between them, until there is no further item or comma. -/
def separatedUpTo {α : Type} (item : Parser α) : Nat → Parser (List α)
  | 0 => pure []
  | n + 1 => do
    match ← orNot item with
    | some value =>
      match ← orNot (punct ",") with
      | some _ => return value :: (← separatedUpTo item n)
      | none => return [value]
    | none => return []

/-- Items with commas between them. There may be no item, and there may be a comma behind the last
one. -/
def separated {α : Type} (item : Parser α) : Parser (List α) := fun ts =>
  separatedUpTo item (ts.length + 1) ts

/-- Reads with `p`, and gives also the tokens that were read. -/
def sliced {α : Type} (p : Parser α) : Parser (α × List Token) := fun ts =>
  match p ts with
  | ⟨some (value, rest), left?⟩ => ⟨some ((value, consumed ts rest), rest), left?⟩
  | ⟨none, left?⟩ => ⟨none, left?⟩

/-- Reads with `p`, and gives also the bytes from the first token read to the last. -/
def spanned {α : Type} (p : Parser α) : Parser (α × Span) := do
  let (value, slice) ← sliced p
  return (value, Token.spanOf slice)

/-- A parser that uses itself, less than `depth` deep. -/
def nested {α : Type} (f : Parser α → Parser α) : Nat → Parser α
  | 0 => fun _ => ⟨none, none⟩
  | depth + 1 => f (nested f depth)

/-- Ties the knot of a parser that uses itself. What stands inside has to start at least one token
later, so that the number of tokens bounds the depth. -/
def knot {α : Type} (f : Parser α → Parser α) : Parser α := fun ts => nested f (ts.length + 1) ts

end Parser

end SolidScript
