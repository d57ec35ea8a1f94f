import SolidScript.Expr
import SolidScript.Proofs.Grammar.Predictive.Rule

namespace SolidScript

namespace Grammar

open Rule

/-- Whether a named argument comes next. -/
def startsNamed : List Token → Bool
  | n :: eq :: _ => n.isName && eq.isPunct "="
  | _ => false

/-- An argument of a call. -/
def argument (sub : Rule Expr) : Rule Argument := do
  if ← look startsNamed then
    let n ← name
    let _ ← punct "="
    return .named n.text (← sub)
  else
    return .positional (← sub)

/-- The arguments of a call in parentheses, with the closing one. -/
def arguments (sub : Rule Expr) : Rule (List Argument × Token) := do
  let _ ← punct "("
  listUntil ")" (argument sub)

/-- What stands at a name: a call if an opening parenthesis follows, otherwise the name itself. -/
def nameOrCall (sub : Rule Expr) : Rule Expr := do
  let n ← name
  if ← look fun ts => ts.head?.any (·.isPunct "(") then
    let (args, close) ← arguments sub
    return .call n.text args ⟨n.offset, close.stop⟩
  else
    return .identifier n.text n

/-- What stands in square brackets: a vector, or a range if a colon follows the first expression. -/
def bracketed (sub : Rule Expr) : Rule Expr := do
  let first ← punct "["
  match ← closing "]" with
  | some last => return .vector [] ⟨first.offset, last.stop⟩
  | none =>
    let a ← sub
    if ← took ":" then
      let b ← sub
      if ← took ":" then
        let c ← sub
        let last ← punct "]"
        return .steppedRange a b c ⟨first.offset, last.stop⟩
      else
        let last ← punct "]"
        return .range a b ⟨first.offset, last.stop⟩
    else if ← took "," then
      let (others, last) ← listUntil "]" sub
      return .vector (a :: others) ⟨first.offset, last.stop⟩
    else
      let last ← punct "]"
      return .vector [a] ⟨first.offset, last.stop⟩

/-- An expression in parentheses. These leave no trace in the tree. -/
def parenthesised (sub : Rule Expr) : Rule Expr := do
  let _ ← punct "("
  let e ← sub
  let _ ← punct ")"
  return e

/-- An expression that binds tighter than all operators. -/
def primary (sub : Rule Expr) : Rule Expr
  | [] => .stuck []
  | t :: ts =>
    match Literal.ofToken? t with
    | some value => .done (.literal value t) ts
    | none =>
      if t.isName then nameOrCall sub (t :: ts)
      else if t.isPunct "[" then bracketed sub (t :: ts)
      else if t.isPunct "(" then parenthesised sub (t :: ts)
      else .stuck (t :: ts)

/-- One more index behind an object, if there is one. -/
def indexRound (sub : Rule Expr) (object : Expr) : Rule (Round Expr Expr) := do
  if ← took "[" then
    let i ← sub
    let last ← punct "]"
    return .again (.index object i ⟨object.span.start, last.stop⟩)
  else
    return .finished object

/-- A primary expression with any number of indices. -/
def indexed (sub : Rule Expr) : Rule Expr := do
  loop (indexRound sub) (← primary sub)

/-- The unary operator that a token spells. -/
def unaryOp? (t : Token) : Option UnaryOp := UnaryOp.all.find? fun op => t.isPunct op.symbol

/-- Any number of unary operators in front of an operand; the nearest one applies first. -/
def unary (operand : Rule Expr) : Rule Expr
  | [] => operand []
  | t :: ts =>
    match unaryOp? t with
    | some op => (unary operand ts).map fun e => .unary op e ⟨t.offset, e.span.stop⟩
    | none => operand (t :: ts)

/-- The operator of a level that a token spells. -/
def binaryOp? (level : List BinaryOp) (t : Token) : Option BinaryOp :=
  level.find? fun op => t.isPunct op.symbol

/-- One more operator of a level with its right operand, if there is one, joined to what stands on
its left. -/
def operationRound (level : List BinaryOp) (operand : Rule Expr) (left : Expr) :
    Rule (Round Expr Expr) := do
  match ← optional (binaryOp? level) with
  | some op =>
    let right ← operand
    return .again (.binary left op right (left.span.merge right.span))
  | none => return .finished left

/-- Operands with operators of one level between them. -/
def levelled (level : List BinaryOp) (operand : Rule Expr) : Rule Expr := do
  loop (operationRound level operand) (← operand)

/-- Everything but a conditional at the outermost place. -/
def operation (sub : Rule Expr) : Rule Expr :=
  BinaryOp.levels.foldl (fun operand level => levelled level operand) (unary (indexed sub))

/-- An expression. Conditionals associate to the right. -/
def conditional (sub : Rule Expr) : Rule Expr := do
  let condition ← operation sub
  if ← took "?" then
    let thenExpr ← sub
    let _ ← punct ":"
    let elseExpr ← sub
    return .conditional condition thenExpr elseExpr (condition.span.merge elseExpr.span)
  else
    return condition

/-- An expression. -/
def expression : Rule Expr := knot conditional

end Grammar

end SolidScript
