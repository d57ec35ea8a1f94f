import SolidScript.Expr
import SolidScript.Parser

namespace SolidScript.Parser

/-- A number, if its text can be read as one. -/
def number : Parser Expr :=
  select (fun t => (Number.read? t.text).map fun value => .literal (.number value) t)
    (token (·.kind = .number))

/-- A string, with its quotes off and its escapes decoded. -/
def string : Parser Expr := do
  let t ← token (·.kind = .string)
  return .literal (.string (String.ofList (Escape.decode (Escape.inside t.text.toList)))) t

/-- One of the two truth values. -/
def boolean : Parser Expr :=
  choice [
    do return .literal (.boolean true) (← keyword "true"),
    do return .literal (.boolean false) (← keyword "false")]

/-- The value that stands for nothing. -/
def undef : Parser Expr := do return .literal .undef (← keyword "undef")

/-- An argument by name. -/
def namedArgument (sub : Parser Expr) : Parser Argument := do
  let n ← name
  let _ ← punct "="
  return .named n.text (← sub)

/-- An argument by place. -/
def positionalArgument (sub : Parser Expr) : Parser Argument := do return .positional (← sub)

/-- The arguments of a call in parentheses, with the closing one. -/
def arguments (sub : Parser Expr) : Parser (List Argument × Token) := do
  let _ ← punct "("
  let args ← separated (choice [namedArgument sub, positionalArgument sub])
  return (args, ← punct ")")

/-- A call. Only a plain name can be called. -/
def call (sub : Parser Expr) : Parser Expr := do
  let n ← name
  let (args, close) ← arguments sub
  return .call n.text args ⟨n.offset, close.stop⟩

/-- A name that stands for itself. -/
def identifier : Parser Expr := do
  let n ← name
  return .identifier n.text n

/-- A range of two or three parts. -/
def range (sub : Parser Expr) : Parser Expr := do
  let ((start, second, third?), span) ← spanned do
    let _ ← punct "["
    let start ← sub
    let _ ← punct ":"
    let second ← sub
    let third? ← orNot do
      let _ ← punct ":"
      sub
    let _ ← punct "]"
    return (start, second, third?)
  match third? with
  | some stop => return .steppedRange start second stop span
  | none => return .range start second span

/-- A vector. -/
def vector (sub : Parser Expr) : Parser Expr := do
  let (elements, span) ← spanned do
    let _ ← punct "["
    let elements ← separated sub
    let _ ← punct "]"
    return elements
  return .vector elements span

/-- An expression in parentheses. These leave no trace in the tree. -/
def parenthesised (sub : Parser Expr) : Parser Expr := do
  let _ ← punct "("
  let e ← sub
  let _ ← punct ")"
  return e

/-- An expression that binds tighter than all operators. -/
def primary (sub : Parser Expr) : Parser Expr :=
  choice [number, string, boolean, undef, call sub, identifier, range sub, vector sub,
    parenthesised sub]

/-- An index in brackets, with the closing one. -/
def index (sub : Parser Expr) : Parser (Expr × Token) := do
  let _ ← punct "["
  let i ← sub
  return (i, ← punct "]")

/-- A primary expression with any number of indices. -/
def indexed (sub : Parser Expr) : Parser Expr := do
  let object ← primary sub
  let indices ← repeated (index sub)
  return indices.foldl (fun object (i, close) => .index object i ⟨object.span.start, close.stop⟩)
    object

/-- Any number of unary operators in front of an operand; the nearest one applies first. -/
def unary (operand : Parser Expr) : Parser Expr := do
  let ops ← repeated (oneOf UnaryOp.symbol UnaryOp.all)
  let e ← operand
  return ops.foldr (fun (op, t) e => .unary op e ⟨t.offset, e.span.stop⟩) e

/-- An operator of a level with its right operand. -/
def operation (level : List BinaryOp) (operand : Parser Expr) : Parser (BinaryOp × Expr) := do
  let (op, _) ← oneOf BinaryOp.symbol level
  return (op, ← operand)

/-- Operands with operators of one level between them, which associate to the left. -/
def levelled (level : List BinaryOp) (operand : Parser Expr) : Parser Expr := do
  let first ← operand
  let operations ← repeated (operation level operand)
  return operations.foldl
    (fun left (op, right) => .binary left op right (left.span.merge right.span)) first

/-- Everything but a conditional at the outermost place. -/
def operations (sub : Parser Expr) : Parser Expr :=
  BinaryOp.levels.foldl (fun operand level => levelled level operand) (unary (indexed sub))

/-- The two branches of a conditional. -/
def branches (sub : Parser Expr) : Parser (Expr × Expr) := do
  let _ ← punct "?"
  let thenExpr ← sub
  let _ ← punct ":"
  return (thenExpr, ← sub)

/-- An expression. Conditionals associate to the right. -/
def conditional (sub : Parser Expr) : Parser Expr := do
  let condition ← operations sub
  match ← orNot (branches sub) with
  | some (thenExpr, elseExpr) =>
    return .conditional condition thenExpr elseExpr (condition.span.merge elseExpr.span)
  | none => return condition

/-- An expression. -/
def expression : Parser Expr := knot conditional

end SolidScript.Parser
