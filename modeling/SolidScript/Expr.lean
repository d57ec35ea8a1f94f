import SolidScript.Number.Decimal
import SolidScript.Operator
import SolidScript.Text.Escape
import SolidScript.Token

namespace SolidScript

/-- A constant as written in a source text. -/
inductive Literal where
  | number (value : Float)
  | string (value : String)
  | boolean (value : Bool)
  | undef
deriving DecidableEq, Inhabited

/-- The literal that a token spells, if it spells one. A number token with a text that is no number
spells none. -/
def Literal.ofToken? (t : Token) : Option Literal :=
  match t.kind with
  | .number => (Number.read? t.text).map .number
  | .string => some (.string (String.ofList (Escape.decode (Escape.inside t.text.toList))))
  | .keyword =>
    if t.text = "true" then some (.boolean true)
    else if t.text = "false" then some (.boolean false)
    else if t.text = "undef" then some .undef
    else none
  | _ => none

mutual

/-- An expression. -/
inductive Expr where
  | literal (value : Literal) (token : Token)
  | identifier (name : String) (token : Token)
  | vector (elements : List Expr) (span : Span)
  /-- A range of two parts; it goes in steps of one. -/
  | range (start stop : Expr) (span : Span)
  /-- A range of three parts. -/
  | steppedRange (start step stop : Expr) (span : Span)
  | unary (op : UnaryOp) (operand : Expr) (span : Span)
  | binary (left : Expr) (op : BinaryOp) (right : Expr) (span : Span)
  | conditional (condition thenExpr elseExpr : Expr) (span : Span)
  | index (object index : Expr) (span : Span)
  /-- A call; only a plain name can be called. -/
  | call (name : String) (arguments : List Argument) (span : Span)

/-- An argument of a call, by place or by name. -/
inductive Argument where
  | positional (value : Expr)
  | named (name : String) (value : Expr)

end

namespace Expr

/-- The bytes that an expression covers. -/
def span : Expr → Span
  | .literal _ token => token.span
  | .identifier _ token => token.span
  | .vector _ span => span
  | .range _ _ span => span
  | .steppedRange _ _ _ span => span
  | .unary _ _ span => span
  | .binary _ _ _ span => span
  | .conditional _ _ _ span => span
  | .index _ _ span => span
  | .call _ _ span => span

end Expr

/-- A parameter of a declaration, with the value it takes if none is given. -/
structure Parameter where
  name : String
  default? : Option Expr

end SolidScript
