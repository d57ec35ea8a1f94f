import SolidScript.Expr

namespace SolidScript

/-- A statement. -/
inductive Stmt where
  | assignment (target : String) (token : Token) (value : Expr) (span : Span)
  | moduleCall (name : String) (arguments : List Argument) (span : Span)
  | moduleDef (name : String) (parameters : List Parameter) (body : Stmt) (span : Span)
  | functionDef (name : String) (parameters : List Parameter) (body : Expr) (span : Span)
  | branch (condition : Expr) (thenBranch : Stmt) (elseBranch : Option Stmt) (span : Span)
  /-- Statements in braces. Braces alone do not open a scope. -/
  | compound (statements : List Stmt) (span : Span)
  | expression (expr : Expr) (span : Span)

/-- The three kinds of things that have names, which never clash. -/
inductive Namespace where
  | variable
  | module
  | function
deriving DecidableEq

/-- The name of the kind as shown to users. -/
def Namespace.label : Namespace → String
  | .variable => "variable"
  | .module => "module"
  | .function => "function"

namespace Stmt

/-- The bytes that a statement covers. -/
def span : Stmt → Span
  | .assignment _ _ _ span => span
  | .moduleCall _ _ span => span
  | .moduleDef _ _ _ span => span
  | .functionDef _ _ _ span => span
  | .branch _ _ _ span => span
  | .compound _ span => span
  | .expression _ span => span

/-- The name of a statement's form, as shown in traces. -/
def label : Stmt → String
  | .assignment .. => "assignment"
  | .moduleCall .. => "module call"
  | .moduleDef .. => "module definition"
  | .functionDef .. => "function definition"
  | .branch .. => "if"
  | .compound .. => "compound"
  | .expression .. => "expression"

/-- One statement for a list of them: a single one stands for itself, any other number of them is a
compound that covers `span`. -/
def join (span : Span) : List Stmt → Stmt
  | [s] => s
  | ss => .compound ss span

/-- What a statement gives a name to. -/
def declares? : Stmt → Option (Namespace × String)
  | .assignment target .. => some (.variable, target)
  | .moduleDef name .. => some (.module, name)
  | .functionDef name .. => some (.function, name)
  | _ => none

/-- Whether the two give a name to the same thing. -/
def redeclares (s t : Stmt) : Bool := s.declares?.isSome && s.declares? = t.declares?

/-- Adds a statement to a list. If it redeclares something, it takes the place of the earlier
declaration; otherwise it goes to the end. -/
def settle (s : Stmt) : List Stmt → List Stmt
  | [] => [s]
  | t :: ts => if s.redeclares t then s :: ts else t :: settle s ts

/-- Keeps of repeated declarations only the last, in the place of the first, so that all that
stands between them already sees the final one. Nested statements are left alone. -/
def hoist (statements : List Stmt) : List Stmt := statements.foldl (fun done s => settle s done) []

end Stmt

end SolidScript
