import SolidScript.Value

namespace SolidScript

/-- What an entry for two operands computes. -/
abbrev BinaryHandler := Value → Value → Value

/-- What an entry for one operand computes. -/
abbrev UnaryHandler := Value → Value

/-- A table of operators. Of two entries for the same operands the first one counts. -/
structure Operators where
  binary : List ((BinaryOp × Kind × Kind) × BinaryHandler)
  unary : List ((UnaryOp × Kind) × UnaryHandler)

namespace Operators

/-- Adds an entry for two operands, in place of any earlier one. -/
def registerBinary (o : Operators) (op : BinaryOp) (left right : Kind) (h : BinaryHandler) :
    Operators :=
  { o with binary := ((op, left, right), h) :: o.binary }

/-- Adds an entry for one operand, in place of any earlier one. -/
def registerUnary (o : Operators) (op : UnaryOp) (operand : Kind) (h : UnaryHandler) : Operators :=
  { o with unary := ((op, operand), h) :: o.unary }

/-- The result where the table has no entry. -/
def fallback : BinaryOp → Value
  | .eq => .boolean false
  | .lt => .boolean false
  | .le => .boolean false
  | .gt => .boolean false
  | .ge => .boolean false
  | .ne => .boolean true
  | _ => .undefined

/-- Applies a binary operator. The logical ones ask both operands, the left one first. -/
def applyBinary (o : Operators) (op : BinaryOp) (l r : Value) : Except EvalError Value :=
  match op with
  | .and => do
    let a ← l.truthy
    let b ← r.truthy
    return .boolean (a && b)
  | .or => do
    let a ← l.truthy
    let b ← r.truthy
    return .boolean (a || b)
  | _ =>
    match o.binary.lookup (op, l.kind, r.kind) with
    | some h => .ok (h l r)
    | none => .ok (fallback op)

/-- Applies a unary operator. -/
def applyUnary (o : Operators) (op : UnaryOp) (v : Value) : Except EvalError Value :=
  match op with
  | .not => do
    let a ← v.truthy
    return .boolean (!a)
  | _ =>
    match o.unary.lookup (op, v.kind) with
    | some h => .ok (h v)
    | none => .ok .undefined

/-- An entry that computes with numbers. -/
def arithmetic (f : Float → Float → Float) : BinaryHandler
  | .number a, .number b => .number (f a b)
  | _, _ => .undefined

/-- The number by which a number or a boolean is ordered; booleans are zero and one. -/
def ordinal? : Value → Option Float
  | .number x => some x
  | .boolean b => some (if b then 1.0 else 0.0)
  | _ => none

/-- The order of two values, if they have one. Strings are ordered by their characters. -/
def order? : Value → Value → Option Ordering
  | .string a, .string b => some (compare a b)
  | l, r => do Number.order? (← ordinal? l) (← ordinal? r)

/-- Whether a comparison holds of operands that are in the given order, or in none. -/
def holds : BinaryOp → Option Ordering → Bool
  | .lt, o => o = some .lt
  | .le, o => o = some .lt || o = some .eq
  | .gt, o => o = some .gt
  | .ge, o => o = some .gt || o = some .eq
  | .eq, o => o = some .eq
  | .ne, o => o ≠ some .eq
  | _, _ => false

/-- An entry that compares by order. -/
def comparison (op : BinaryOp) : BinaryHandler := fun l r => .boolean (holds op (order? l r))

/-- An entry that compares by text. -/
def sameText : BinaryHandler := fun l r => .boolean (l.text = r.text)

/-- An entry that compares by text and denies it. -/
def otherText : BinaryHandler := fun l r => .boolean (l.text ≠ r.text)

/-- The sign changes of numbers. -/
def negation : UnaryHandler
  | .number x => .number (-x)
  | _ => .undefined

/-- The kinds of operands that have an order. -/
def orderedPairs : List (Kind × Kind) :=
  [(.number, .number), (.string, .string), (.boolean, .boolean), (.number, .boolean),
    (.boolean, .number)]

/-- The kinds of which two values are equal if their texts are. -/
def renderedKinds : List Kind := [.vector, .range, .undefined]

/-- The entries that compute with numbers. -/
def arithmeticEntries : List ((BinaryOp × Kind × Kind) × BinaryHandler) :=
  [((.add, .number, .number), arithmetic (· + ·)), ((.sub, .number, .number), arithmetic (· - ·)),
    ((.mul, .number, .number), arithmetic (· * ·)), ((.div, .number, .number), arithmetic (· / ·)),
    ((.mod, .number, .number), arithmetic Number.remainder)]

/-- The entries that compare by order. -/
def comparisonEntries : List ((BinaryOp × Kind × Kind) × BinaryHandler) :=
  orderedPairs.flatMap fun (l, r) =>
    BinaryOp.comparisons.map fun op => ((op, l, r), comparison op)

/-- The entries that compare by text. -/
def renderedEntries : List ((BinaryOp × Kind × Kind) × BinaryHandler) :=
  renderedKinds.flatMap fun k => [((.eq, k, k), sameText), ((.ne, k, k), otherText)]

/-- The table that every run starts with. -/
def standard : Operators where
  binary := arithmeticEntries ++ comparisonEntries ++ renderedEntries
  unary := [((.plus, .number), id), ((.neg, .number), negation)]

end Operators

end SolidScript
