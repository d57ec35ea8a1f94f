import SolidScript.Operators

/-!
Evaluation of expressions. Operands are evaluated from left to right before an operator is applied,
the logical ones included; only the conditional leaves an operand alone. An expression sees the
names around it through `Bindings`, and a name that is missing there leaves a warning.
-/

namespace SolidScript

/-- A name that was looked up in vain. -/
structure Missing where
  space : Namespace
  name : String
deriving DecidableEq

/-- The text shown to users. -/
def Missing.message (m : Missing) : String :=
  "Ignoring unknown " ++ m.space.label ++ " '" ++ m.name ++ "'."

/-- What comes of an evaluation: the warnings on the way, and a value or an error. -/
structure Evaluation (α : Type) where
  warnings : List Missing
  result : Except EvalError α

namespace Evaluation

/-- Ends with an error. -/
def fail {α : Type} (e : EvalError) : Evaluation α := ⟨[], .error e⟩

/-- Leaves a warning. -/
def warn (m : Missing) : Evaluation Unit := ⟨[m], .ok ()⟩

/-- Takes over a result; an error without a place is put at `span`. -/
def located {α : Type} (span : Span) (result : Except EvalError α) : Evaluation α :=
  ⟨[], result.mapError (·.locate span)⟩

end Evaluation

instance : Monad Evaluation where
  pure value := ⟨[], .ok value⟩
  bind e next :=
    match e.result with
    | .ok value =>
      let after := next value
      ⟨e.warnings ++ after.warnings, after.result⟩
    | .error error => ⟨e.warnings, .error error⟩

/-- What an expression sees: the variables and functions in view, and the operators. -/
structure Bindings where
  find : String → Option Value
  isFunction : String → Bool
  operators : Operators

/-- The value of a variable; undefined, with a warning, if there is none. -/
def Bindings.variable (b : Bindings) (name : String) : Evaluation Value :=
  match b.find name with
  | some value => pure value
  | none => do
    Evaluation.warn ⟨.variable, name⟩
    return .undefined

/-- The value of an argument, with its name if it was given by name. -/
structure ResolvedArgument where
  name? : Option String
  value : Value

/-- The text of an argument. -/
def ResolvedArgument.text (a : ResolvedArgument) : String :=
  match a.name? with
  | some name => name ++ " = " ++ a.value.text
  | none => a.value.text

namespace Bindings

mutual

/-- Evaluates an expression. -/
def evaluate (b : Bindings) : Expr → Evaluation Value
  | .literal value _ => pure (Value.ofLiteral value)
  | .identifier name _ => b.variable name
  | .vector elements _ => do
    return .vector (← b.evaluateAll elements)
  | .range start stop _ => do
    let first ← b.evaluate start
    let last ← b.evaluate stop
    return Value.ofBounds first last
  | .steppedRange start step stop _ => do
    let first ← b.evaluate start
    let gap ← b.evaluate step
    let last ← b.evaluate stop
    return Value.ofSteps first gap last
  | .unary op operand span => do
    let v ← b.evaluate operand
    Evaluation.located span (b.operators.applyUnary op v)
  | .binary left op right span => do
    let l ← b.evaluate left
    let r ← b.evaluate right
    Evaluation.located span (b.operators.applyBinary op l r)
  | .conditional condition thenExpr elseExpr _ => do
    let c ← b.evaluate condition
    if ← Evaluation.located condition.span c.truthy then
      b.evaluate thenExpr
    else
      b.evaluate elseExpr
  | .index object index _ => do
    let o ← b.evaluate object
    let i ← b.evaluate index
    return o.select i
  | .call name arguments span =>
    if b.isFunction name then Evaluation.fail ⟨.notImplemented .function name, some span⟩
    else do
      let _ ← b.resolve arguments
      Evaluation.warn ⟨.function, name⟩
      return .undefined

/-- Evaluates expressions in order. -/
def evaluateAll (b : Bindings) : List Expr → Evaluation (List Value)
  | [] => pure []
  | e :: es => do
    let first ← b.evaluate e
    let others ← b.evaluateAll es
    return first :: others

/-- Evaluates arguments in order. -/
def resolve (b : Bindings) : List Argument → Evaluation (List ResolvedArgument)
  | [] => pure []
  | .positional value :: rest => do
    let v ← b.evaluate value
    let others ← b.resolve rest
    return ⟨none, v⟩ :: others
  | .named name value :: rest => do
    let v ← b.evaluate value
    let others ← b.resolve rest
    return ⟨some name, v⟩ :: others

end

end Bindings

end SolidScript
