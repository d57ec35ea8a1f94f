import SolidScript.Parser.Statement
import SolidScript.Proofs.Grammar.Predictive.Expression

namespace SolidScript

namespace Grammar

open Rule

/-- A node with the semicolon that ends it. -/
def terminated (node : Derivation) : Rule Derivation := do
  return .sequence [node, .terminator (← punct ";")]

/-- A parameter with its optional default. -/
def parameter : Rule Parameter := do
  let n ← name
  if ← took "=" then
    return ⟨n.text, some (← expression)⟩
  else
    return ⟨n.text, none⟩

/-- Parameters in parentheses. -/
def parameters : Rule (List Parameter) := do
  let _ ← punct "("
  let (params, _) ← listUntil ")" parameter
  return params

/-- A semicolon alone. -/
def emptyStatement : Rule Derivation := do
  return .sequence [.terminator (← punct ";")]

/-- A closing brace behind the first `items` of a block, or one more statement. -/
def blockRound (statement : Rule Derivation) (items : List Derivation) :
    Rule (Round (List Derivation) (List Derivation)) := do
  if ← took "\x7d" then
    return .finished items
  else
    return .again (items ++ [← statement])

/-- Statements in braces. -/
def compound (statement : Rule Derivation) : Rule Derivation := do
  let (items, span) ← spanned do
    let _ ← punct "\x7b"
    loop (blockRound statement) []
  return .compound (.sequence items) span

/-- A condition, a statement and an optional other statement. The `else` goes with the nearest
`if`. -/
def branch (statement : Rule Derivation) : Rule Derivation := do
  let ((condition, thenBranch, elseBranch), span) ← spanned do
    let _ ← keyword "if"
    let _ ← punct "("
    let condition ← expression
    let _ ← punct ")"
    let thenBranch ← statement
    if ← accept (·.isKeyword "else") then
      let elseBranch ← statement
      return (condition, thenBranch, elseBranch)
    else
      return (condition, thenBranch, Derivation.absent)
  return .branch condition thenBranch elseBranch span

/-- The definition of a module. -/
def moduleDef (statement : Rule Derivation) : Rule Derivation := do
  let ((n, params, body), span) ← spanned do
    let _ ← keyword "module"
    let n ← name
    let params ← parameters
    let body ← statement
    return (n, params, body)
  return .moduleDef n.text params body span

/-- The definition of a function. -/
def functionDef : Rule Derivation := do
  let ((n, params, body), span) ← spanned do
    let _ ← keyword "function"
    let n ← name
    let params ← parameters
    let _ ← punct "="
    let body ← expression
    return (n, params, body)
  terminated (.functionDef n.text params body span)

/-- A call that stands as a statement. -/
def moduleCall : Rule Derivation := do
  let n ← name
  let (args, close) ← arguments expression
  terminated (.moduleCall n.text args ⟨n.offset, close.stop⟩)

/-- An assignment to any expression. -/
def assignment : Rule Derivation
  | [] => .stuck []
  | t :: ts => (do
    let ((target, value), span) ← spanned do
      let target ← expression
      let _ ← punct "="
      let value ← expression
      return (target, value)
    terminated (.assignment target t value span) : Rule Derivation) (t :: ts)

/-- An expression that stands as a statement. A call does not: it instantiates a module. -/
def expressionStatement : Rule Derivation := do
  match ← expression with
  | .call .. => refuse
  | e => terminated (.expression e e.span)

/-- What an expression at the start of a statement comes to. If an equals sign follows, it is the
target of an assignment, which covers the bytes from the first token `t` to the end of the value.
Otherwise a call is a module call, unless it is in parentheses, where no statement is left for it to
be. -/
def simpleRest (t : Token) (target : Expr) : Rule Derivation := do
  if ← took "=" then
    let (value, slice) ← sliced expression
    terminated (.assignment target t value ⟨t.offset, (Token.spanOf slice).stop⟩)
  else
    match target with
    | .call n args span => if t.isName then terminated (.moduleCall n args span) else refuse
    | e => terminated (.expression e e.span)

/-- The statements that begin with an expression. -/
def simple : Rule Derivation
  | [] => .stuck []
  | t :: ts => (do simpleRest t (← expression) : Rule Derivation) (t :: ts)

end Grammar

namespace Production

/-- Reads a statement of one form. -/
def parse (statement : Rule Derivation) : Production → Rule Derivation
  | .empty => Grammar.emptyStatement
  | .compound => Grammar.compound statement
  | .branch => Grammar.branch statement
  | .moduleDef => Grammar.moduleDef statement
  | .functionDef => Grammar.functionDef
  | .moduleCall => Grammar.moduleCall
  | .assignment => Grammar.assignment
  | .expression => Grammar.expressionStatement

/-- The production that a statement's first token announces. -/
def announced? (t : Token) : Option Production :=
  if t.isPunct ";" then some .empty
  else if t.isPunct "\x7b" then some .compound
  else if t.isKeyword "if" then some .branch
  else if t.isKeyword "module" then some .moduleDef
  else if t.isKeyword "function" then some .functionDef
  else none

end Production

namespace Grammar

open Rule

/-- A statement whose inner statements are read with `sub`. -/
def anyStatement (sub : Rule Derivation) : Rule Derivation
  | [] => .stuck []
  | t :: ts =>
    match Production.announced? t with
    | some p => p.parse sub (t :: ts)
    | none => simple (t :: ts)

/-- A statement. -/
def statement : Rule Derivation := knot anyStatement

/-- The end of a program behind its first `statements`, or one more statement with its tokens. -/
def programRound (statements : List (Derivation × List Token)) :
    Rule (Round (List (Derivation × List Token)) (List (Derivation × List Token))) := do
  if ← look List.isEmpty then
    return .finished statements
  else
    return .again (statements ++ [← sliced statement])

/-- Whole programs: statements up to the end, each with its tokens. -/
def program : Rule (List (Derivation × List Token)) := loop programRound []

end Grammar

end SolidScript
