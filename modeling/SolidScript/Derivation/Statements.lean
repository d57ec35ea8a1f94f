import SolidScript.Derivation
import SolidScript.Parser.ParseError

namespace SolidScript.Derivation

mutual

/-- The statements of a tree, or the first target that cannot be assigned to. Of the two branches
of an `if` the second one is looked at first. -/
def statements : Derivation → Except ParseError (List Stmt)
  | .sequence items => statementsAll items
  | .terminator _ => .ok []
  | .absent => .ok []
  | .expression expr span => .ok [.expression expr span]
  | .assignment (.identifier name token) _ value span => .ok [.assignment name token value span]
  | .assignment _ token _ _ => .error (.invalidTarget token)
  | .moduleCall name arguments span => .ok [.moduleCall name arguments span]
  | .branch condition thenBranch .absent span => do
    let taken ← thenBranch.statements
    return [.branch condition (Stmt.join (thenBranch.span?.getD span) taken) none span]
  | .branch condition thenBranch elseBranch span => do
    let other ← elseBranch.statements
    let taken ← thenBranch.statements
    return [.branch condition (Stmt.join (thenBranch.span?.getD span) taken)
      (some (Stmt.join (elseBranch.span?.getD span) other)) span]
  | .compound body span => do
    return [.compound (← body.statements) span]
  | .moduleDef name parameters body span => do
    return [.moduleDef name parameters (Stmt.join (body.span?.getD span) (← body.statements)) span]
  | .functionDef name parameters body span => .ok [.functionDef name parameters body span]

/-- The statements of several trees in order. -/
def statementsAll : List Derivation → Except ParseError (List Stmt)
  | [] => .ok []
  | d :: ds => do
    let first ← d.statements
    let rest ← statementsAll ds
    return first ++ rest

end

end SolidScript.Derivation
