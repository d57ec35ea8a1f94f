namespace SolidScript

/-- A range of byte offsets: `start` is inside it, `stop` is the first offset behind it. -/
structure Span where
  start : Nat
  stop : Nat
deriving DecidableEq, Inhabited

namespace Span

/-- The empty range at the start of the text, used where nothing better is known. -/
def origin : Span := ⟨0, 0⟩

/-- The smallest range that covers both. -/
def merge (a b : Span) : Span := ⟨min a.start b.start, max a.stop b.stop⟩

/-- Covers whichever of the two ranges are there. -/
def merge? : Option Span → Option Span → Option Span
  | some a, some b => some (a.merge b)
  | some a, none => some a
  | none, b => b

end Span

end SolidScript
