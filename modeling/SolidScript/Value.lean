import SolidScript.Number.Text
import SolidScript.Stmt

namespace SolidScript

/-- A range of numbers. It remembers whether its step was left out. -/
structure NumberRange where
  start : Float
  step : Float
  stop : Float
  twoPart : Bool
deriving DecidableEq, Inhabited

/-- The text of a range always has three parts. -/
def NumberRange.text (r : NumberRange) : String :=
  "[" ++ Number.text r.start ++ " : " ++ Number.text r.step ++ " : " ++ Number.text r.stop ++ "]"

/-- A value. -/
inductive Value where
  | number (value : Float)
  | string (value : String)
  | boolean (value : Bool)
  | undefined
  | vector (elements : List Value)
  | range (value : NumberRange)
deriving Inhabited

/-- The kinds of values. -/
inductive Kind where
  | number
  | string
  | boolean
  | undefined
  | vector
  | range
deriving DecidableEq, Inhabited

/-- The name of a kind as shown to users. -/
def Kind.label : Kind → String
  | .number => "number"
  | .string => "string"
  | .boolean => "boolean"
  | .undefined => "undef"
  | .vector => "vector"
  | .range => "range"

/-- All kinds. -/
def Kind.all : List Kind := [.number, .string, .boolean, .undefined, .vector, .range]

/-- Why an evaluation cannot go on. -/
inductive EvalFault where
  /-- A module or a function that a script defines is called. -/
  | notImplemented (what : Namespace) (name : String)
  /-- A value of one kind has no counterpart of the other. -/
  | coercion (given wanted : Kind)
deriving DecidableEq

/-- A fault with the bytes to point at, once they are known. -/
structure EvalError where
  fault : EvalFault
  span? : Option Span
deriving DecidableEq

namespace EvalError

/-- The text shown to users. -/
def message (e : EvalError) : String :=
  match e.fault with
  | .notImplemented what name =>
    "Cannot call user defined " ++ what.label ++ "s yet - not implemented: '" ++ name ++ "'"
  | .coercion given wanted => "cannot convert " ++ given.label ++ " to " ++ wanted.label

/-- Says where an error happened, unless that is known already. -/
def locate (span : Span) (e : EvalError) : EvalError := { e with span? := some (e.span?.getD span) }

end EvalError

namespace Value

/-- The kind of a value. -/
def kind : Value → Kind
  | .number _ => .number
  | .string _ => .string
  | .boolean _ => .boolean
  | .undefined => .undefined
  | .vector _ => .vector
  | .range _ => .range

mutual

/-- The text of a value. -/
def text : Value → String
  | .number x => Number.text x
  | .string s => "\"" ++ s ++ "\""
  | .boolean true => "true"
  | .boolean false => "false"
  | .undefined => "undef"
  | .vector elements => "[" ++ String.intercalate ", " (texts elements) ++ "]"
  | .range r => r.text

/-- The texts of several values. -/
def texts : List Value → List String
  | [] => []
  | v :: vs => v.text :: texts vs

end

/-- Whether a value counts as true. Zero and what is empty or undefined do not; a range is neither
true nor false. -/
def truthy : Value → Except EvalError Bool
  | .undefined => .ok false
  | .boolean b => .ok b
  | .number x => .ok (!Number.isZero x)
  | .string s => .ok (!s.isEmpty)
  | .vector elements => .ok (!elements.isEmpty)
  | .range _ => .error ⟨.coercion .range .boolean, none⟩

/-- The number that a value is. -/
def number? : Value → Option Float
  | .number x => some x
  | _ => none

/-- A literal as a value. -/
def ofLiteral : Literal → Value
  | .number x => .number x
  | .string s => .string s
  | .boolean b => .boolean b
  | .undef => .undefined

/-- A range of two parts, if both are numbers. -/
def ofBounds (start stop : Value) : Value :=
  match start.number?, stop.number? with
  | some a, some b => .range ⟨a, 1.0, b, true⟩
  | _, _ => .undefined

/-- A range of three parts, if all are numbers. -/
def ofSteps (start step stop : Value) : Value :=
  match start.number?, step.number?, stop.number? with
  | some a, some s, some b => .range ⟨a, s, b, false⟩
  | _, _, _ => .undefined

/-- The element of a vector or the character of a string that a number selects. -/
def select (object index : Value) : Value :=
  match index.number?.bind Number.index? with
  | none => .undefined
  | some i =>
    match object with
    | .vector elements => elements[i]?.getD .undefined
    | .string s => (s.toList[i]?.map fun c => Value.string c.toString).getD .undefined
    | _ => .undefined

end Value

end SolidScript
