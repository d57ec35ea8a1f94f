import SolidScript.Expr
import SolidScript.Proofs.Token

namespace SolidScript

mutual

/-- The expression with `f` of its tokens, and with the bytes that it covers forgotten. -/
def Expr.mapTokens (f : Token → Token) : Expr → Expr
  | .literal value token => .literal value (f token)
  | .identifier name token => .identifier name (f token)
  | .vector elements _ => .vector (Expr.mapTokensAll f elements) .origin
  | .range a b _ => .range (a.mapTokens f) (b.mapTokens f) .origin
  | .steppedRange a b c _ => .steppedRange (a.mapTokens f) (b.mapTokens f) (c.mapTokens f) .origin
  | .unary op e _ => .unary op (e.mapTokens f) .origin
  | .binary left op right _ => .binary (left.mapTokens f) op (right.mapTokens f) .origin
  | .conditional condition a b _ =>
    .conditional (condition.mapTokens f) (a.mapTokens f) (b.mapTokens f) .origin
  | .index object i _ => .index (object.mapTokens f) (i.mapTokens f) .origin
  | .call name arguments _ => .call name (Argument.mapTokensAll f arguments) .origin

/-- Expressions with `f` of their tokens. -/
def Expr.mapTokensAll (f : Token → Token) : List Expr → List Expr
  | [] => []
  | e :: es => e.mapTokens f :: Expr.mapTokensAll f es

/-- An argument with `f` of its tokens. -/
def Argument.mapTokens (f : Token → Token) : Argument → Argument
  | .positional value => .positional (value.mapTokens f)
  | .named name value => .named name (value.mapTokens f)

/-- Arguments with `f` of their tokens. -/
def Argument.mapTokensAll (f : Token → Token) : List Argument → List Argument
  | [] => []
  | a :: as => a.mapTokens f :: Argument.mapTokensAll f as

end

/-- The expression without any places. -/
abbrev Expr.placeless : Expr → Expr := Expr.mapTokens Token.placeless

/-- An argument without any places. -/
abbrev Argument.placeless : Argument → Argument := Argument.mapTokens Token.placeless

/-- The expression by what its tokens spell. -/
abbrev Expr.erase : Expr → Expr := Expr.mapTokens Token.unplaced

/-- An argument by what its tokens spell. -/
abbrev Argument.erase : Argument → Argument := Argument.mapTokens Token.unplaced

section Lists

variable (f : Token → Token)

@[simp] theorem Expr.mapTokensAll_eq (es : List Expr) :
    Expr.mapTokensAll f es = es.map (Expr.mapTokens f) := by
  induction es with
  | nil => rfl
  | cons e es ih => rw [Expr.mapTokensAll, ih, List.map_cons]

@[simp] theorem Argument.mapTokensAll_eq (as : List Argument) :
    Argument.mapTokensAll f as = as.map (Argument.mapTokens f) := by
  induction as with
  | nil => rfl
  | cons a as ih => rw [Argument.mapTokensAll, ih, List.map_cons]

end Lists

section Composition

variable (f g : Token → Token)

mutual

theorem Expr.mapTokens_mapTokens : (e : Expr) →
    (e.mapTokens g).mapTokens f = e.mapTokens (f ∘ g)
  | .literal _ _ | .identifier _ _ => by simp only [Expr.mapTokens, Function.comp_apply]
  | .vector elements _ => by
    simp only [Expr.mapTokens, Expr.mapTokensAll_mapTokensAll elements]
  | .range a b _ => by
    simp only [Expr.mapTokens, Expr.mapTokens_mapTokens a, Expr.mapTokens_mapTokens b]
  | .steppedRange a b c _ => by
    simp only [Expr.mapTokens, Expr.mapTokens_mapTokens a, Expr.mapTokens_mapTokens b,
      Expr.mapTokens_mapTokens c]
  | .unary _ e _ => by simp only [Expr.mapTokens, Expr.mapTokens_mapTokens e]
  | .binary left _ right _ => by
    simp only [Expr.mapTokens, Expr.mapTokens_mapTokens left, Expr.mapTokens_mapTokens right]
  | .conditional condition a b _ => by
    simp only [Expr.mapTokens, Expr.mapTokens_mapTokens condition, Expr.mapTokens_mapTokens a,
      Expr.mapTokens_mapTokens b]
  | .index object i _ => by
    simp only [Expr.mapTokens, Expr.mapTokens_mapTokens object, Expr.mapTokens_mapTokens i]
  | .call _ arguments _ => by
    simp only [Expr.mapTokens, Argument.mapTokensAll_mapTokensAll arguments]

theorem Expr.mapTokensAll_mapTokensAll : (es : List Expr) →
    Expr.mapTokensAll f (Expr.mapTokensAll g es) = Expr.mapTokensAll (f ∘ g) es
  | [] => rfl
  | e :: es => by
    simp only [Expr.mapTokensAll, Expr.mapTokens_mapTokens e, Expr.mapTokensAll_mapTokensAll es]

theorem Argument.mapTokens_mapTokens : (a : Argument) →
    (a.mapTokens g).mapTokens f = a.mapTokens (f ∘ g)
  | .positional value | .named _ value => by
    simp only [Argument.mapTokens, Expr.mapTokens_mapTokens value]

theorem Argument.mapTokensAll_mapTokensAll : (as : List Argument) →
    Argument.mapTokensAll f (Argument.mapTokensAll g as) = Argument.mapTokensAll (f ∘ g) as
  | [] => rfl
  | a :: as => by
    simp only [Argument.mapTokensAll, Argument.mapTokens_mapTokens a,
      Argument.mapTokensAll_mapTokensAll as]

end

end Composition

end SolidScript
