import SolidScript.Expr
import SolidScript.Proofs.Token

namespace SolidScript

/-- The lexemes, in parentheses if their rank is more than the limit. -/
def Lexeme.enclose (limit rank : Nat) (ls : List Lexeme) : List Lexeme :=
  if rank ≤ limit then ls else ofPunct "(" :: (ls ++ [ofPunct ")"])

/-- The place of a binary operator in the table of precedence. -/
def BinaryOp.rank : BinaryOp → Nat
  | .mul | .div | .mod => 3
  | .add | .sub => 4
  | .shl | .shr => 5
  | .lt | .le | .gt | .ge => 6
  | .eq | .ne => 7
  | .bitAnd => 8
  | .bitXor => 9
  | .bitOr => 10
  | .and => 11
  | .or => 12

/-- The place of an expression's form in the table of precedence. -/
def Expr.rank : Expr → Nat
  | .literal .. | .identifier .. | .vector .. | .range .. | .steppedRange .. | .call .. => 0
  | .index .. => 1
  | .unary .. => 2
  | .binary _ op _ _ => op.rank
  | .conditional .. => 13

open Lexeme

mutual

/-- An expression as lexemes. -/
def Expr.render : Expr → List Lexeme
  | .literal _ token => [token.toLexeme]
  | .identifier _ token => [token.toLexeme]
  | .vector elements _ => ofPunct "[" :: (Expr.renderAll elements ++ [ofPunct "]"])
  | .range a b _ => ofPunct "[" :: (a.render ++ ofPunct ":" :: (b.render ++ [ofPunct "]"]))
  | .steppedRange a b c _ =>
    ofPunct "[" :: (a.render ++ ofPunct ":" ::
      (b.render ++ ofPunct ":" :: (c.render ++ [ofPunct "]"])))
  | .unary op e _ => ofPunct op.symbol :: enclose 2 e.rank e.render
  | .binary left op right _ =>
    enclose op.rank left.rank left.render ++
      ofPunct op.symbol :: enclose (op.rank - 1) right.rank right.render
  | .conditional condition a b _ =>
    enclose 12 condition.rank condition.render ++
      ofPunct "?" :: (a.render ++ ofPunct ":" :: b.render)
  | .index object i _ =>
    enclose 1 object.rank object.render ++ ofPunct "[" :: (i.render ++ [ofPunct "]"])
  | .call name arguments _ =>
    ofName name :: ofPunct "(" :: (Argument.renderAll arguments ++ [ofPunct ")"])

/-- Expressions as lexemes, with commas between them. -/
def Expr.renderAll : List Expr → List Lexeme
  | [] => []
  | [e] => e.render
  | e :: es => e.render ++ ofPunct "," :: Expr.renderAll es

/-- An argument as lexemes. -/
def Argument.render : Argument → List Lexeme
  | .positional value => value.render
  | .named name value => ofName name :: ofPunct "=" :: value.render

/-- Arguments as lexemes, with commas between them. -/
def Argument.renderAll : List Argument → List Lexeme
  | [] => []
  | [a] => a.render
  | a :: as => a.render ++ ofPunct "," :: Argument.renderAll as

end

mutual

/-- Every literal and every name of the expression is what its token spells. -/
def Expr.Backed : Expr → Prop
  | .literal value token => Literal.ofToken? token = some value
  | .identifier name token => token.isName ∧ token.text = name
  | .vector elements _ => Expr.BackedAll elements
  | .range a b _ => a.Backed ∧ b.Backed
  | .steppedRange a b c _ => a.Backed ∧ b.Backed ∧ c.Backed
  | .unary _ e _ => e.Backed
  | .binary left _ right _ => left.Backed ∧ right.Backed
  | .conditional condition a b _ => condition.Backed ∧ a.Backed ∧ b.Backed
  | .index object i _ => object.Backed ∧ i.Backed
  | .call _ arguments _ => Argument.BackedAll arguments

/-- All of the expressions are backed by their tokens. -/
def Expr.BackedAll : List Expr → Prop
  | [] => True
  | e :: es => e.Backed ∧ Expr.BackedAll es

/-- The value of the argument is backed by its tokens. -/
def Argument.Backed : Argument → Prop
  | .positional value => value.Backed
  | .named _ value => value.Backed

/-- All of the arguments are backed by their tokens. -/
def Argument.BackedAll : List Argument → Prop
  | [] => True
  | a :: as => a.Backed ∧ Argument.BackedAll as

end

end SolidScript
