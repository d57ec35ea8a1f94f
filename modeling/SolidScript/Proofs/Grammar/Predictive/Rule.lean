import SolidScript.Token

/-!
Rules that never go back. A rule looks at most two tokens ahead, takes what it can, and where it
cannot go on it hands back the tokens from that place. The parser tries alternatives in order
instead and keeps its furthest failure; `Parser.program_refines` says that this comes to the same.
-/

namespace SolidScript

/-- What comes of reading: a value and the tokens behind it, or the tokens at which no rule can go
on. -/
inductive Outcome (α : Type) where
  | done (value : α) (rest : List Token)
  | stuck (rest : List Token)

/-- Reads an `α` from the front of a list of tokens. -/
def Rule (α : Type) : Type := List Token → Outcome α

namespace Outcome

/-- Goes on behind what was read. -/
def andThen {α β : Type} (o : Outcome α) (next : α → Rule β) : Outcome β :=
  match o with
  | .done value rest => next value rest
  | .stuck rest => .stuck rest

/-- Changes the value that was read. -/
def map {α β : Type} (f : α → β) : Outcome α → Outcome β
  | .done value rest => .done (f value) rest
  | .stuck rest => .stuck rest

end Outcome

instance : Monad Rule where
  pure value := fun ts => .done value ts
  bind rule next := fun ts => (rule ts).andThen next

/-- What one round of a repetition leads to: another round, or the value of the whole. -/
inductive Round (σ α : Type) where
  | again (state : σ)
  | finished (value : α)

namespace Rule

/-- Goes no further. -/
def refuse {α : Type} : Rule α := fun ts => .stuck ts

/-- Asks something about the tokens that are left, and takes none of them. -/
def look {α : Type} (f : List Token → α) : Rule α := fun ts => .done (f ts) ts

/-- One token that satisfies `p`. -/
def token (p : Token → Bool) : Rule Token
  | [] => .stuck []
  | t :: ts => if p t then .done t ts else .stuck (t :: ts)

/-- The given punctuation. -/
def punct (symbol : String) : Rule Token := token (·.isPunct symbol)

/-- The given keyword. -/
def keyword (word : String) : Rule Token := token (·.isKeyword word)

/-- A plain or a special identifier. -/
def name : Rule Token := token (·.isName)

/-- Takes the next token if `f` makes something of it. -/
def optional {α : Type} (f : Token → Option α) : Rule (Option α)
  | [] => .done none []
  | t :: ts =>
    match f t with
    | some value => .done (some value) ts
    | none => .done none (t :: ts)

/-- Takes the next token if it satisfies `p`, and says whether it did. -/
def accept (p : Token → Bool) : Rule Bool
  | [] => .done false []
  | t :: ts => if p t then .done true ts else .done false (t :: ts)

/-- Takes the given punctuation if it comes next, and says whether it did. -/
def took (symbol : String) : Rule Bool := accept (·.isPunct symbol)

/-- Takes the given punctuation if it comes next, and gives it. -/
def closing (symbol : String) : Rule (Option Token) :=
  optional fun t => if t.isPunct symbol then some t else none

/-- Reads with `p`, and gives also the tokens that were read. -/
def sliced {α : Type} (p : Rule α) : Rule (α × List Token) := fun ts =>
  match p ts with
  | .done value rest => .done (value, consumed ts rest) rest
  | .stuck rest => .stuck rest

/-- Reads with `p`, and gives also the bytes from the first token read to the last. -/
def spanned {α : Type} (p : Rule α) : Rule (α × Span) := do
  let (value, slice) ← sliced p
  return (value, Token.spanOf slice)

/-- At most `rounds` rounds of a repetition. -/
def rounds {σ α : Type} (step : σ → Rule (Round σ α)) : Nat → σ → Rule α
  | 0, _ => refuse
  | n + 1, state => do
    match ← step state with
    | .again next => rounds step n next
    | .finished value => return value

/-- Repeats a step until it gives the value of the whole. A step that asks for another round has to
take a token, so that one round more than there are tokens is enough. -/
def loop {σ α : Type} (step : σ → Rule (Round σ α)) (state : σ) : Rule α := fun ts =>
  rounds step (ts.length + 1) state ts

/-- A rule that uses itself, less than `depth` deep. -/
def nested {α : Type} (f : Rule α → Rule α) : Nat → Rule α
  | 0 => refuse
  | depth + 1 => f (nested f depth)

/-- Ties the knot of a rule that uses itself. What stands inside has to start at least one token
later, so that the number of tokens bounds the depth. -/
def knot {α : Type} (f : Rule α → Rule α) : Rule α := fun ts => nested f (ts.length + 1) ts

/-- One round of a list behind its first `items`: the closing punctuation, or one more item. -/
def listRound {α : Type} (close : String) (item : Rule α) (items : List α) :
    Rule (Round (List α) (List α × Token)) := do
  match ← closing close with
  | some last => return .finished (items, last)
  | none =>
    let next ← item
    if ← took "," then
      return .again (items ++ [next])
    else
      let last ← punct close
      return .finished (items ++ [next], last)

/-- Items with commas between them up to the closing punctuation, which is also given. There may be
no item, and there may be a comma behind the last one. -/
def listUntil {α : Type} (close : String) (item : Rule α) : Rule (List α × Token) :=
  loop (listRound close item) []

end Rule

end SolidScript
