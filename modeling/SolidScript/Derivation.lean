import SolidScript.Stmt

namespace SolidScript

/-- A derivation tree. -/
inductive Derivation where
  | sequence (items : List Derivation)
  /-- The semicolon at the end of a statement. -/
  | terminator (token : Token)
  /-- Stands for an optional part that is not there. -/
  | absent
  | expression (expr : Expr) (span : Span)
  /-- An assignment with the first token of its target. -/
  | assignment (target : Expr) (token : Token) (value : Expr) (span : Span)
  | moduleCall (name : String) (arguments : List Argument) (span : Span)
  | branch (condition : Expr) (thenBranch elseBranch : Derivation) (span : Span)
  | compound (body : Derivation) (span : Span)
  | moduleDef (name : String) (parameters : List Parameter) (body : Derivation) (span : Span)
  | functionDef (name : String) (parameters : List Parameter) (body : Expr) (span : Span)

namespace Derivation

mutual

/-- The bytes that a tree covers, if it holds any token. -/
def span? : Derivation → Option Span
  | .sequence items => spanAll? items
  | .terminator token => some token.span
  | .absent => none
  | .expression _ span => some span
  | .assignment _ _ _ span => some span
  | .moduleCall _ _ span => some span
  | .branch _ _ _ span => some span
  | .compound _ span => some span
  | .moduleDef _ _ _ span => some span
  | .functionDef _ _ _ span => some span

/-- The bytes that a list of trees covers. -/
def spanAll? : List Derivation → Option Span
  | [] => none
  | d :: ds => Span.merge? d.span? (spanAll? ds)

end

end Derivation

end SolidScript
