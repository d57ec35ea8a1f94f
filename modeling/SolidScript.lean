import SolidScript.Compile
import SolidScript.Derivation
import SolidScript.Derivation.Statements
import SolidScript.Diagnostic
import SolidScript.Evaluation
import SolidScript.Expr
import SolidScript.Log
import SolidScript.Machine
import SolidScript.Machine.Runner
import SolidScript.Number.Binary
import SolidScript.Number.Decimal
import SolidScript.Number.Text
import SolidScript.Operator
import SolidScript.Operators
import SolidScript.Parser
import SolidScript.Parser.Expression
import SolidScript.Parser.ParseError
import SolidScript.Parser.Program
import SolidScript.Parser.Statement
import SolidScript.Scopes
import SolidScript.Script
import SolidScript.Settings
import SolidScript.Settings.Reader
import SolidScript.Span
import SolidScript.Stmt
import SolidScript.Text.Escape
import SolidScript.Text.Lines
import SolidScript.Text.Position
import SolidScript.Token
import SolidScript.Token.Lexer
import SolidScript.Token.Rules
import SolidScript.Value
import SolidScript.Proofs.Compile.Composition
import SolidScript.Proofs.Compile.Layout
import SolidScript.Proofs.Compile.Rereading
import SolidScript.Proofs.Compile.Spans
import SolidScript.Proofs.Compile.Words
import SolidScript.Proofs.Derivation.Assignments
import SolidScript.Proofs.Derivation.Reshaping
import SolidScript.Proofs.Derivation.Targets
import SolidScript.Proofs.Diagnostic
import SolidScript.Proofs.Diagnostic.Alignment
import SolidScript.Proofs.Diagnostic.Snippet
import SolidScript.Proofs.Diagnostic.Underline
import SolidScript.Proofs.Evaluation
import SolidScript.Proofs.Evaluation.Agreement
import SolidScript.Proofs.Evaluation.Faults
import SolidScript.Proofs.Grammar.Ambiguity
import SolidScript.Proofs.Grammar.Blame
import SolidScript.Proofs.Grammar.Brackets
import SolidScript.Proofs.Grammar.RoundTrip
import SolidScript.Proofs.Grammar.Written.Edges
import SolidScript.Proofs.Grammar.Written.Reading
import SolidScript.Proofs.Machine.BoundOnce
import SolidScript.Proofs.Machine.Deferred
import SolidScript.Proofs.Machine.Faults
import SolidScript.Proofs.Machine.Isolation
import SolidScript.Proofs.Machine.Progress
import SolidScript.Proofs.Machine.Refinement
import SolidScript.Proofs.Machine.Reports
import SolidScript.Proofs.Machine.Seams
import SolidScript.Proofs.Machine.Session
import SolidScript.Proofs.Machine.Turns
import SolidScript.Proofs.Node
import SolidScript.Proofs.Number.Binary
import SolidScript.Proofs.Number.Numeral
import SolidScript.Proofs.Number.Text
import SolidScript.Proofs.Operators
import SolidScript.Proofs.Operators.Comparison
import SolidScript.Proofs.Operators.Registration
import SolidScript.Proofs.Operators.Rendering
import SolidScript.Proofs.Scopes.Shadowing
import SolidScript.Proofs.Script
import SolidScript.Proofs.Script.Log
import SolidScript.Proofs.Stmt.Parts
import SolidScript.Proofs.Stmt.Slots
import SolidScript.Proofs.Stmt.Table
import SolidScript.Proofs.Stmt.Written
import SolidScript.Proofs.Text.Lines
import SolidScript.Proofs.Text.Offsets
import SolidScript.Proofs.Token.Depth
import SolidScript.Proofs.Token.Literal
import SolidScript.Proofs.Token.Longest
import SolidScript.Proofs.Token.Nesting
import SolidScript.Proofs.Token.Order
import SolidScript.Proofs.Token.Places
import SolidScript.Proofs.Token.Slice
import SolidScript.Proofs.Token.Tiling
import SolidScript.Proofs.Token.Value
import SolidScript.Proofs.Value.Text
