import SolidScript.Derivation
import SolidScript.Parser.Expression

namespace SolidScript

/-- The forms of a statement. -/
inductive Production where
  | empty
  | compound
  | branch
  | moduleDef
  | functionDef
  | moduleCall
  | assignment
  | expression
deriving DecidableEq

/-- All productions, in the order in which they are tried. -/
def Production.all : List Production :=
  [.empty, .compound, .branch, .moduleDef, .functionDef, .moduleCall, .assignment, .expression]

namespace Parser

/-- A node with the semicolon that ends it. -/
def terminated (node : Derivation) : Parser Derivation := do
  return .sequence [node, .terminator (← punct ";")]

/-- A parameter with its optional default. -/
def parameter : Parser Parameter := do
  let n ← name
  let default? ← orNot do
    let _ ← punct "="
    expression
  return ⟨n.text, default?⟩

/-- Parameters in parentheses. -/
def parameters : Parser (List Parameter) := do
  let _ ← punct "("
  let params ← separated parameter
  let _ ← punct ")"
  return params

/-- A semicolon alone. -/
def emptyStatement : Parser Derivation := do
  return .sequence [.terminator (← punct ";")]

/-- Statements in braces. -/
def compound (statement : Parser Derivation) : Parser Derivation := do
  let (items, span) ← spanned do
    let _ ← punct "\x7b"
    let items ← repeated statement
    let _ ← punct "\x7d"
    return items
  return .compound (.sequence items) span

/-- A condition, a statement and an optional other statement. -/
def branch (statement : Parser Derivation) : Parser Derivation := do
  let ((condition, thenBranch, elseBranch?), span) ← spanned do
    let _ ← keyword "if"
    let _ ← punct "("
    let condition ← expression
    let _ ← punct ")"
    let thenBranch ← statement
    let elseBranch? ← orNot do
      let _ ← keyword "else"
      statement
    return (condition, thenBranch, elseBranch?)
  return .branch condition thenBranch (elseBranch?.getD .absent) span

/-- The definition of a module. -/
def moduleDef (statement : Parser Derivation) : Parser Derivation := do
  let ((n, params, body), span) ← spanned do
    let _ ← keyword "module"
    let n ← name
    let params ← parameters
    let body ← statement
    return (n, params, body)
  return .moduleDef n.text params body span

/-- The definition of a function. -/
def functionDef : Parser Derivation := do
  let ((n, params, body), span) ← spanned do
    let _ ← keyword "function"
    let n ← name
    let params ← parameters
    let _ ← punct "="
    let body ← expression
    return (n, params, body)
  terminated (.functionDef n.text params body span)

/-- A call that stands as a statement. -/
def moduleCall : Parser Derivation := do
  let ((n, args), span) ← spanned do
    let n ← name
    let (args, _) ← arguments expression
    return (n, args)
  terminated (.moduleCall n.text args span)

/-- An assignment to any expression. -/
def assignment : Parser Derivation := do
  let ((first, target, value), span) ← spanned do
    let first ← peek
    let target ← expression
    let _ ← punct "="
    let value ← expression
    return (first, target, value)
  terminated (.assignment target first value span)

/-- An expression, unless it is a call. -/
def otherThanCall : Parser Expr :=
  select (fun e => match e with | .call .. => none | e => some e) expression

/-- An expression that stands as a statement. A call does not: it instantiates a module. -/
def expressionStatement : Parser Derivation := do
  let e ← otherThanCall
  terminated (.expression e e.span)

/-- Reads a statement of one form. -/
def production (statement : Parser Derivation) : Production → Parser Derivation
  | .empty => emptyStatement
  | .compound => compound statement
  | .branch => branch statement
  | .moduleDef => moduleDef statement
  | .functionDef => functionDef
  | .moduleCall => moduleCall
  | .assignment => assignment
  | .expression => expressionStatement

/-- A statement whose inner statements are read with `sub`: of the first form that does not fail. -/
def anyStatement (sub : Parser Derivation) : Parser Derivation :=
  choice (Production.all.map (production sub))

/-- A statement. -/
def statement : Parser Derivation := knot anyStatement

end Parser

/-- Whether one production accepts exactly these tokens. -/
def Production.accepts (ts : List Token) (p : Production) : Bool :=
  ((do let _ ← Parser.production Parser.statement p; Parser.atEnd : Parser Unit) ts).value?.isSome

end SolidScript
