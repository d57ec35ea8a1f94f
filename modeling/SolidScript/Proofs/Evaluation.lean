import SolidScript.Evaluation

namespace SolidScript

/-- A value that is no range and holds none. -/
inductive Value.RangeFree : Value → Prop
  | number (x : Float) : RangeFree (.number x)
  | string (s : String) : RangeFree (.string s)
  | boolean (b : Bool) : RangeFree (.boolean b)
  | undefined : RangeFree .undefined
  | vector {elements : List Value} (helements : ∀ v ∈ elements, RangeFree v) :
    RangeFree (.vector elements)

namespace Value

theorem RangeFree.truthy {v : Value} (h : v.RangeFree) : ∃ b, v.truthy = .ok b := by
  cases h <;> exact ⟨_, rfl⟩

theorem ofLiteral_rangeFree (value : Literal) : (ofLiteral value).RangeFree := by
  cases value <;> constructor

theorem RangeFree.select {object : Value} (h : object.RangeFree) (index : Value) :
    (object.select index).RangeFree := by
  unfold Value.select
  split
  · exact .undefined
  · next i _ =>
    cases h with
    | vector helements =>
      rename_i elements
      cases hi : elements[i]? with
      | none => simpa [hi] using .undefined
      | some v => simpa [hi] using helements v (List.mem_of_getElem? hi)
    | string s => cases hi : s.toList[i]? <;> simp [hi] <;> constructor
    | _ => exact .undefined

end Value

namespace Operators

theorem mem_of_lookup {α β : Type} [BEq α] [LawfulBEq α] {entries : List (α × β)} {key : α}
    {value : β} (h : entries.lookup key = some value) : (key, value) ∈ entries := by
  obtain ⟨before, after, rfl, _⟩ := List.lookup_eq_some_iff.mp h
  simp

theorem arithmetic_rangeFree (f : Float → Float → Float) (l r : Value) :
    (arithmetic f l r).RangeFree := by
  unfold arithmetic
  split <;> constructor

/-- No entry of the table for two operands makes a range. -/
theorem standard_binary_rangeFree {key : BinaryOp × Kind × Kind} {handler : BinaryHandler}
    (h : (key, handler) ∈ standard.binary) (l r : Value) : (handler l r).RangeFree := by
  obtain h | h := List.mem_append.mp h
  · obtain h | h := List.mem_append.mp h
    · obtain ⟨f, rfl⟩ : ∃ f, handler = arithmetic f := by
        simp only [arithmeticEntries, List.mem_cons, Prod.mk.injEq, List.not_mem_nil, or_false] at h
        obtain ⟨_, rfl⟩ | ⟨_, rfl⟩ | ⟨_, rfl⟩ | ⟨_, rfl⟩ | ⟨_, rfl⟩ := h <;> exact ⟨_, rfl⟩
      exact arithmetic_rangeFree f l r
    · obtain ⟨_, _, h⟩ := List.mem_flatMap.mp h
      obtain ⟨_, _, heq⟩ := List.mem_map.mp h
      cases heq
      exact .boolean _
  · obtain ⟨_, _, h⟩ := List.mem_flatMap.mp h
    simp only [List.mem_cons, Prod.mk.injEq, List.not_mem_nil, or_false] at h
    obtain ⟨_, rfl⟩ | ⟨_, rfl⟩ := h <;> exact .boolean _

theorem fallback_rangeFree (op : BinaryOp) : (fallback op).RangeFree := by
  cases op <;> constructor

/-- Operands without ranges have a result without ranges, whatever their kinds. -/
theorem applyBinary_rangeFree {l r : Value} (hl : l.RangeFree) (hr : r.RangeFree) (op : BinaryOp) :
    ∃ v, standard.applyBinary op l r = .ok v ∧ v.RangeFree := by
  obtain ⟨a, ha⟩ := hl.truthy
  obtain ⟨b, hb⟩ := hr.truthy
  unfold applyBinary
  split
  · exact ⟨.boolean (a && b), by rw [ha, hb]; rfl, .boolean _⟩
  · exact ⟨.boolean (a || b), by rw [ha, hb]; rfl, .boolean _⟩
  · split
    · next handler hlookup =>
      exact ⟨_, rfl, standard_binary_rangeFree (mem_of_lookup hlookup) l r⟩
    · exact ⟨_, rfl, fallback_rangeFree op⟩

theorem applyUnary_rangeFree {v : Value} (hv : v.RangeFree) (op : UnaryOp) :
    ∃ w, standard.applyUnary op v = .ok w ∧ w.RangeFree := by
  obtain ⟨a, ha⟩ := hv.truthy
  unfold applyUnary
  split
  · exact ⟨.boolean (!a), by rw [ha]; rfl, .boolean _⟩
  · split
    · next handler hlookup =>
      have hmem := mem_of_lookup hlookup
      simp only [standard, List.mem_cons, Prod.mk.injEq, List.not_mem_nil, or_false] at hmem
      obtain ⟨_, rfl⟩ | ⟨_, rfl⟩ := hmem
      · exact ⟨v, rfl, hv⟩
      · refine ⟨_, rfl, ?_⟩
        cases hv <;> constructor
    · exact ⟨_, rfl, .undefined⟩

end Operators

mutual

/-- An expression and all expressions inside of it. -/
def Expr.parts : Expr → List Expr
  | .literal value token => [.literal value token]
  | .identifier name token => [.identifier name token]
  | .vector elements span => .vector elements span :: Expr.partsAll elements
  | .range start stop span => .range start stop span :: (start.parts ++ stop.parts)
  | .steppedRange start step stop span =>
    .steppedRange start step stop span :: (start.parts ++ step.parts ++ stop.parts)
  | .unary op operand span => .unary op operand span :: operand.parts
  | .binary left op right span => .binary left op right span :: (left.parts ++ right.parts)
  | .conditional condition thenExpr elseExpr span =>
    .conditional condition thenExpr elseExpr span ::
      (condition.parts ++ thenExpr.parts ++ elseExpr.parts)
  | .index object index span => .index object index span :: (object.parts ++ index.parts)
  | .call name arguments span => .call name arguments span :: Argument.partsAll arguments

/-- Expressions and all expressions inside of them. -/
def Expr.partsAll : List Expr → List Expr
  | [] => []
  | e :: es => e.parts ++ Expr.partsAll es

/-- All expressions in arguments. -/
def Argument.partsAll : List Argument → List Expr
  | [] => []
  | .positional value :: rest => value.parts ++ Argument.partsAll rest
  | .named _ value :: rest => value.parts ++ Argument.partsAll rest

end

namespace Expr

/-- Whether an expression is a range, of two parts or of three. -/
def isRange : Expr → Bool
  | .range .. => true
  | .steppedRange .. => true
  | _ => false

/-- The name of the function that is called, if the expression is a call. -/
def callee? : Expr → Option String
  | .call name _ _ => some name
  | _ => none

/-- None of the expressions is a range, and none calls one of the functions. -/
def Tame (functions : String → Prop) (es : List Expr) : Prop :=
  ∀ e ∈ es, e.isRange = false ∧ ∀ name ∈ e.callee?, ¬functions name

section Tame

variable {functions : String → Prop} {e : Expr} {es fs : List Expr}

theorem tame_cons : Tame functions (e :: es) ↔
    (e.isRange = false ∧ ∀ name ∈ e.callee?, ¬functions name) ∧ Tame functions es :=
  List.forall_mem_cons

theorem tame_append :
    Tame functions (es ++ fs) ↔ Tame functions es ∧ Tame functions fs :=
  List.forall_mem_append

end Tame

end Expr

namespace Evaluation

variable {α β : Type} {P : α → Prop} {Q : β → Prop}

/-- The evaluation comes to a value with the property. -/
def Yields (P : α → Prop) (x : Evaluation α) : Prop := ∃ a, x.result = .ok a ∧ P a

theorem Yields.pure {a : α} (h : P a) : Yields P (pure a) := ⟨a, rfl, h⟩

theorem Yields.bind {x : Evaluation α} {f : α → Evaluation β} (hx : Yields P x)
    (hf : ∀ a, P a → Yields Q (f a)) : Yields Q (x >>= f) := by
  obtain ⟨a, ha, hP⟩ := hx
  obtain ⟨b, hb, hQ⟩ := hf a hP
  refine ⟨b, ?_, hQ⟩
  obtain ⟨warnings, result⟩ := x
  cases ha
  exact hb

theorem Yields.located {span : Span} {result : Except EvalError α}
    (h : ∃ a, result = .ok a ∧ P a) : Yields P (located span result) := by
  obtain ⟨a, rfl, ha⟩ := h
  exact ⟨a, rfl, ha⟩

theorem yields_warn (m : Missing) : Yields (fun _ => True) (warn m) := ⟨(), rfl, trivial⟩

/-- A value without ranges counts as true or as false. -/
theorem yields_truthy {v : Value} (h : v.RangeFree) (span : Span) :
    Yields (fun _ => True) (Evaluation.located span v.truthy) := by
  obtain ⟨b, hb⟩ := h.truthy
  exact .located ⟨b, hb, trivial⟩

end Evaluation

namespace Bindings

open Evaluation

variable {b : Bindings} {functions : String → Prop}

/-- No variable in view holds a range, the functions in view are among those listed, and the
operators are the ordinary ones. -/
structure Tame (functions : String → Prop) (b : Bindings) : Prop where
  values : ∀ name v, b.find name = some v → v.RangeFree
  functions : ∀ name, b.isFunction name → functions name
  operators : b.operators = .standard

theorem Tame.variable (hb : b.Tame functions) (name : String) :
    (b.variable name).Yields Value.RangeFree := by
  unfold Bindings.variable
  split
  · next v hfind => exact .pure (hb.values name v hfind)
  · exact (yields_warn _).bind fun _ _ => .pure .undefined

mutual

/-- An expression without ranges and without calls of functions in view has a value, and that holds
no range. -/
theorem Tame.evaluate (hb : b.Tame functions) : (e : Expr) → Expr.Tame functions e.parts →
    (b.evaluate e).Yields Value.RangeFree
  | .literal value _, _ => by
    rw [Bindings.evaluate]
    exact .pure (Value.ofLiteral_rangeFree value)
  | .identifier name _, _ => by
    rw [Bindings.evaluate]
    exact hb.variable name
  | .vector elements _, h => by
    rw [Expr.parts, Expr.tame_cons] at h
    rw [Bindings.evaluate]
    exact (hb.evaluateAll elements h.2).bind fun _ hvs => .pure (.vector hvs)
  | .range .., h => by
    rw [Expr.parts, Expr.tame_cons] at h
    cases h.1.1
  | .steppedRange .., h => by
    rw [Expr.parts, Expr.tame_cons] at h
    cases h.1.1
  | .unary op operand span, h => by
    rw [Expr.parts, Expr.tame_cons] at h
    rw [Bindings.evaluate, hb.operators]
    exact (hb.evaluate operand h.2).bind fun _ hv =>
      .located (Operators.applyUnary_rangeFree hv op)
  | .binary left op right span, h => by
    rw [Expr.parts, Expr.tame_cons, Expr.tame_append] at h
    rw [Bindings.evaluate, hb.operators]
    exact (hb.evaluate left h.2.1).bind fun _ hl => (hb.evaluate right h.2.2).bind fun _ hr =>
      .located (Operators.applyBinary_rangeFree hl hr op)
  | .conditional condition thenExpr elseExpr span, h => by
    rw [Expr.parts, Expr.tame_cons, Expr.tame_append, Expr.tame_append] at h
    obtain ⟨_, ⟨hcondition, hthen⟩, helse⟩ := h
    rw [Bindings.evaluate]
    refine (hb.evaluate condition hcondition).bind fun c hc => ?_
    refine (yields_truthy hc condition.span).bind fun taken _ => ?_
    cases taken with
    | true => exact hb.evaluate thenExpr hthen
    | false => exact hb.evaluate elseExpr helse
  | .index object index span, h => by
    rw [Expr.parts, Expr.tame_cons, Expr.tame_append] at h
    rw [Bindings.evaluate]
    exact (hb.evaluate object h.2.1).bind fun _ ho => (hb.evaluate index h.2.2).bind fun i _ =>
      .pure (ho.select i)
  | .call name arguments span, h => by
    rw [Expr.parts, Expr.tame_cons] at h
    have hunknown : ¬b.isFunction name := fun hname => h.1.2 name rfl (hb.functions name hname)
    rw [Bindings.evaluate, if_neg hunknown]
    exact (hb.resolve arguments h.2).bind fun _ _ => (yields_warn _).bind fun _ _ =>
      .pure .undefined

theorem Tame.evaluateAll (hb : b.Tame functions) : (es : List Expr) →
    Expr.Tame functions (Expr.partsAll es) →
    (b.evaluateAll es).Yields fun vs => ∀ v ∈ vs, v.RangeFree
  | [], _ => by
    rw [Bindings.evaluateAll]
    exact .pure fun _ hmem => by cases hmem
  | e :: es, h => by
    rw [Expr.partsAll, Expr.tame_append] at h
    rw [Bindings.evaluateAll]
    exact (hb.evaluate e h.1).bind fun _ hv => (hb.evaluateAll es h.2).bind fun _ hvs =>
      .pure (List.forall_mem_cons.mpr ⟨hv, hvs⟩)

theorem Tame.resolve (hb : b.Tame functions) : (arguments : List Argument) →
    Expr.Tame functions (Argument.partsAll arguments) →
    (b.resolve arguments).Yields fun _ => True
  | [], _ => by
    rw [Bindings.resolve]
    exact .pure trivial
  | .positional value :: rest, h => by
    rw [Argument.partsAll, Expr.tame_append] at h
    rw [Bindings.resolve]
    exact (hb.evaluate value h.1).bind fun _ _ => (hb.resolve rest h.2).bind fun _ _ =>
      .pure trivial
  | .named name value :: rest, h => by
    rw [Argument.partsAll, Expr.tame_append] at h
    rw [Bindings.resolve]
    exact (hb.evaluate value h.1).bind fun _ _ => (hb.resolve rest h.2).bind fun _ _ =>
      .pure trivial

end

end Bindings

end SolidScript
