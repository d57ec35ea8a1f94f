import SolidScript.Derivation.Statements
import SolidScript.Parser.Program
import SolidScript.Token.Lexer

namespace SolidScript

/-- Why a source text has no statements. -/
inductive CompileError where
  | lex (error : LexError)
  | parse (error : ParseError)
deriving DecidableEq

namespace CompileError

/-- The text shown to users. -/
def message : CompileError → String
  | .lex e => e.message
  | .parse e => e.message

/-- The bytes to point at. -/
def span : CompileError → Span
  | .lex e => e.span
  | .parse e => e.span

end CompileError

/-- The derivation tree of a source text. -/
def derive (source : String) : Except CompileError Derivation := do
  let tokens ← (tokenize source).mapError .lex
  (parseTokens (Token.significant tokens)).mapError .parse

/-- The statements of a source text as they are written. -/
def parse (source : String) : Except CompileError (List Stmt) := do
  (← derive source).statements.mapError .parse

/-- The statements of a source text, repeated declarations hoisted. -/
def compile (source : String) : Except CompileError (List Stmt) := do
  return Stmt.hoist (← parse source)

end SolidScript
