import SolidScript.Scopes

namespace SolidScript

/-- Whether an expression evaluates to a range. -/
def Bindings.isRange (b : Bindings) (e : Expr) : Bool :=
  match (b.evaluate e).result with
  | .ok (.range _) => true
  | _ => false

/-- Which way a condition decides, if it has a value that counts as true or as false. -/
def Bindings.decides? (b : Bindings) (condition : Expr) : Option Bool :=
  (b.evaluate condition).result.toOption.bind (·.truthy.toOption)

/-- Something that an evaluation or a walk comes to. -/
inductive Site where
  /-- An expression, when it is its turn. -/
  | expression (b : Bindings) (e : Expr)
  /-- A condition, when it has to be true or false. -/
  | condition (b : Bindings) (e : Expr)
  /-- The call of a module, with what the name stands for. -/
  | moduleCall (found : Option Module) (name : String) (span : Span)

namespace Site

/-- The bytes of the node. -/
def span : Site → Span
  | .expression _ e => e.span
  | .condition _ e => e.span
  | .moduleCall _ _ span => span

/-- What is wrong with a node. A function that is defined cannot be called, nor can a module that is
not built in, and a range is neither true nor false. Nothing else is wrong with any node. -/
def fault? : Site → Option EvalFault
  | .expression b (.call name _ _) =>
    if b.isFunction name then some (.notImplemented .function name) else none
  | .expression b (.unary .not operand _) =>
    if b.isRange operand then some (.coercion .range .boolean) else none
  | .expression b (.binary left .and right _) =>
    if b.isRange left || b.isRange right then some (.coercion .range .boolean) else none
  | .expression b (.binary left .or right _) =>
    if b.isRange left || b.isRange right then some (.coercion .range .boolean) else none
  | .expression _ _ => none
  | .condition b e => if b.isRange e then some (.coercion .range .boolean) else none
  | .moduleCall (some (.builtin _)) _ _ => none
  | .moduleCall _ name _ => some (.notImplemented .module name)

end Site

namespace Bindings

mutual

/-- What the evaluation of an expression comes to, in order. Operands come before the expression
that they belong to, but a call before its arguments. Of the two choices of a conditional only one
comes, behind the condition. -/
def sites (b : Bindings) : Expr → List Site
  | .literal value token => [.expression b (.literal value token)]
  | .identifier name token => [.expression b (.identifier name token)]
  | .vector elements span => b.sitesAll elements ++ [.expression b (.vector elements span)]
  | .range start stop span =>
    b.sites start ++ (b.sites stop ++ [.expression b (.range start stop span)])
  | .steppedRange start step stop span =>
    b.sites start ++ (b.sites step ++ (b.sites stop ++
      [.expression b (.steppedRange start step stop span)]))
  | .unary op operand span => b.sites operand ++ [.expression b (.unary op operand span)]
  | .binary left op right span =>
    b.sites left ++ (b.sites right ++ [.expression b (.binary left op right span)])
  | .conditional condition thenExpr elseExpr span =>
    b.sites condition ++ .condition b condition ::
      ((match b.decides? condition with
        | some true => b.sites thenExpr
        | some false => b.sites elseExpr
        | none => []) ++ [.expression b (.conditional condition thenExpr elseExpr span)])
  | .index object index span =>
    b.sites object ++ (b.sites index ++ [.expression b (.index object index span)])
  | .call name arguments span =>
    .expression b (.call name arguments span) :: b.sitesOf arguments

/-- What the evaluation of expressions comes to. -/
def sitesAll (b : Bindings) : List Expr → List Site
  | [] => []
  | e :: es => b.sites e ++ b.sitesAll es

/-- What the evaluation of arguments comes to. -/
def sitesOf (b : Bindings) : List Argument → List Site
  | [] => []
  | .positional value :: rest => b.sites value ++ b.sitesOf rest
  | .named _ value :: rest => b.sites value ++ b.sitesOf rest

end

end Bindings

/-- The result is an error at the first site with a fault, or a success if there is none. -/
inductive Site.Settle {α : Type} : List Site → Except EvalError α → Prop
  | fails {before after : List Site} {site : Site} {fault : EvalFault}
    (hbefore : ∀ s ∈ before, s.fault? = none) (hfault : site.fault? = some fault) :
    Site.Settle (before ++ site :: after) (.error ⟨fault, some site.span⟩)
  | succeeds {sites : List Site} {v : α} (hsites : ∀ s ∈ sites, s.fault? = none) :
    Site.Settle sites (.ok v)

theorem Evaluation.result_bind {α β : Type} (x : Evaluation α) (f : α → Evaluation β) :
    (x >>= f).result = x.result >>= fun v => (f v).result := by
  obtain ⟨warnings, e | v⟩ := x <;> rfl

namespace Site.Settle

variable {α β : Type} {sites later : List Site} {site : Site} {result : Except EvalError α}

theorem pure {v : α} : Settle [] (.ok v) := .succeeds nofun

theorem first (site : Site) {fault : EvalFault} (h : site.fault? = some fault) :
    Settle (α := α) (site :: later) (.error ⟨fault, some site.span⟩) := by
  change Settle ([] ++ site :: later) _
  exact .fails nofun h

/-- What is not at fault may come before. -/
theorem skip (h : site.fault? = none) (hrest : Settle later result) :
    Settle (site :: later) result := by
  cases hrest with
  | fails hbefore hfault =>
    rw [← List.cons_append]
    exact .fails (List.forall_mem_cons.mpr ⟨h, hbefore⟩) hfault
  | succeeds hsites => exact .succeeds (List.forall_mem_cons.mpr ⟨h, hsites⟩)

/-- What is not at fault may come behind. -/
theorem append (hfirst : Settle sites result) (h : site.fault? = none) :
    Settle (sites ++ [site]) result := by
  cases hfirst with
  | fails hbefore hfault =>
    rw [List.append_assoc, List.cons_append]
    exact .fails hbefore hfault
  | succeeds hsites =>
    exact .succeeds (List.forall_mem_append.mpr ⟨hsites, List.forall_mem_singleton.mpr h⟩)

/-- One thing and then another that depends on its value. -/
theorem andThen {next : α → Except EvalError β} (hfirst : Settle sites result)
    (hnext : ∀ v, result = .ok v → Settle later (next v)) :
    Settle (sites ++ later) (result >>= next) := by
  cases hfirst with
  | fails hbefore hfault =>
    rw [List.append_assoc, List.cons_append]
    exact .fails hbefore hfault
  | @succeeds _ v hsites =>
    change Settle _ (next v)
    have hlast := hnext v rfl
    generalize next v = last at hlast ⊢
    cases hlast with
    | fails hbefore hfault =>
      rw [← List.append_assoc]
      exact .fails (List.forall_mem_append.mpr ⟨hsites, hbefore⟩) hfault
    | succeeds hlater => exact .succeeds (List.forall_mem_append.mpr ⟨hsites, hlater⟩)

/-- One evaluation and then another that depends on its value. -/
theorem bind {x : Evaluation α} {f : α → Evaluation β} (hx : Settle sites x.result)
    (hf : ∀ v, x.result = .ok v → Settle later (f v).result) :
    Settle (sites ++ later) (x >>= f).result := by
  rw [Evaluation.result_bind]
  exact hx.andThen hf

/-- What is made of a value is not at fault. -/
theorem map (f : α → β) (h : Settle sites result) : Settle sites (result.map f) := by
  cases h with
  | fails hbefore hfault => exact .fails hbefore hfault
  | succeeds hsites => exact .succeeds hsites

end Site.Settle

namespace Bindings

open Site (Settle fault?)

variable {b : Bindings}

/-- A value counts as true or as false if and only if it is no range. -/
theorem truthy_cases {e : Expr} {v : Value} (hv : (b.evaluate e).result = .ok v) :
    (b.isRange e = true ∧ v.truthy = .error ⟨.coercion .range .boolean, none⟩) ∨
      (b.isRange e = false ∧ ∃ taken, v.truthy = .ok taken ∧ b.decides? e = some taken) := by
  unfold isRange decides?
  rw [hv]
  cases v with
  | range r => exact .inl ⟨rfl, rfl⟩
  | _ => exact .inr ⟨rfl, _, rfl, rfl⟩

/-- The operator `!` fails at a range, and no other at anything. -/
theorem settle_unary {operand : Expr} {v : Value} (hv : (b.evaluate operand).result = .ok v)
    (op : UnaryOp) (span : Span) :
    Settle [.expression b (.unary op operand span)]
      (Evaluation.located span (b.operators.applyUnary op v)).result := by
  cases op with
  | not =>
    obtain ⟨hrange, htruthy⟩ | ⟨hrange, taken, htruthy, _⟩ := truthy_cases hv
    · simp only [Operators.applyUnary, htruthy]
      exact .first _ (by simp only [fault?, hrange, if_true])
    · simp only [Operators.applyUnary, htruthy]
      exact .skip (by simp [fault?, hrange]) .pure
  | _ =>
    refine .skip rfl ?_
    simp only [Operators.applyUnary]
    split <;> exact .pure

/-- The operators `&&` and `||` fail at a range on either side. -/
theorem settle_logical {left right : Expr} {l r : Value} (hl : (b.evaluate left).result = .ok l)
    (hr : (b.evaluate right).result = .ok r) {op : BinaryOp} (hop : op = .and ∨ op = .or)
    (span : Span) :
    Settle [.expression b (.binary left op right span)]
      (Evaluation.located span (b.operators.applyBinary op l r)).result := by
  have hfault : (Site.expression b (.binary left op right span)).fault? =
      if b.isRange left || b.isRange right then some (.coercion .range .boolean) else none := by
    obtain rfl | rfl := hop <;> rfl
  obtain ⟨combine, hcombine⟩ : ∃ combine : Bool → Bool → Bool, b.operators.applyBinary op l r = do
      let first ← l.truthy
      let second ← r.truthy
      return .boolean (combine first second) := by
    obtain rfl | rfl := hop <;> exact ⟨_, rfl⟩
  rw [hcombine]
  obtain ⟨hleft, htruthy⟩ | ⟨hleft, first, htruthy, _⟩ := truthy_cases hl
  · rw [htruthy]
    exact .first _ (hfault.trans (by rw [hleft, Bool.true_or, if_pos rfl]))
  · obtain ⟨hright, htruthy'⟩ | ⟨hright, second, htruthy', _⟩ := truthy_cases hr
    · rw [htruthy, htruthy']
      exact .first _ (hfault.trans (by rw [hright, Bool.or_true, if_pos rfl]))
    · rw [htruthy, htruthy']
      exact .skip (hfault.trans (by rw [hleft, hright]; rfl)) .pure

theorem settle_binary {left right : Expr} {l r : Value} (hl : (b.evaluate left).result = .ok l)
    (hr : (b.evaluate right).result = .ok r) (op : BinaryOp) (span : Span) :
    Settle [.expression b (.binary left op right span)]
      (Evaluation.located span (b.operators.applyBinary op l r)).result := by
  cases op with
  | and => exact settle_logical hl hr (.inl rfl) span
  | or => exact settle_logical hl hr (.inr rfl) span
  | _ =>
    refine .skip rfl ?_
    simp only [Operators.applyBinary]
    split <;> exact .pure

/-- A condition fails at a range, and else goes on the way that it decides. -/
theorem settle_condition {condition : Expr} {c : Value}
    (hc : (b.evaluate condition).result = .ok c) {later : List Site} {α : Type}
    {next : Bool → Except EvalError α}
    (hnext : ∀ taken, b.decides? condition = some taken → Settle later (next taken)) :
    Settle (.condition b condition :: later)
      ((Evaluation.located condition.span c.truthy).result >>= next) := by
  obtain ⟨hrange, htruthy⟩ | ⟨hrange, taken, htruthy, hdecides⟩ := truthy_cases hc
  · rw [htruthy]
    exact .first (.condition b condition) (by simp only [fault?, hrange, if_true])
  · rw [htruthy]
    exact .skip (by simp [fault?, hrange]) (hnext taken hdecides)

mutual

/-- The evaluation of an expression fails at the first node with a fault, and at no other. -/
theorem settle_evaluate (b : Bindings) : (e : Expr) → Settle (b.sites e) (b.evaluate e).result
  | .literal value token => by
    rw [sites, evaluate]
    exact .skip rfl .pure
  | .identifier name token => by
    rw [sites, evaluate]
    unfold Bindings.variable
    split <;> exact .skip rfl .pure
  | .vector elements span => by
    rw [sites, evaluate]
    exact (b.settle_evaluateAll elements).bind fun _ _ => .skip rfl .pure
  | .range start stop span => by
    rw [sites, evaluate]
    exact (b.settle_evaluate start).bind fun _ _ => (b.settle_evaluate stop).bind fun _ _ =>
      .skip rfl .pure
  | .steppedRange start step stop span => by
    rw [sites, evaluate]
    exact (b.settle_evaluate start).bind fun _ _ => (b.settle_evaluate step).bind fun _ _ =>
      (b.settle_evaluate stop).bind fun _ _ => .skip rfl .pure
  | .unary op operand span => by
    rw [sites, evaluate]
    exact (b.settle_evaluate operand).bind fun _ hv => settle_unary hv op span
  | .binary left op right span => by
    rw [sites, evaluate]
    exact (b.settle_evaluate left).bind fun _ hl => (b.settle_evaluate right).bind fun _ hr =>
      settle_binary hl hr op span
  | .conditional condition thenExpr elseExpr span => by
    rw [sites, evaluate]
    refine (b.settle_evaluate condition).bind fun c hc => ?_
    rw [Evaluation.result_bind]
    refine settle_condition hc fun taken htaken => ?_
    rw [htaken]
    cases taken with
    | true => exact (b.settle_evaluate thenExpr).append rfl
    | false => exact (b.settle_evaluate elseExpr).append rfl
  | .index object index span => by
    rw [sites, evaluate]
    exact (b.settle_evaluate object).bind fun _ _ => (b.settle_evaluate index).bind fun _ _ =>
      .skip rfl .pure
  | .call name arguments span => by
    rw [sites, evaluate]
    by_cases hname : b.isFunction name
    · rw [if_pos hname]
      exact .first (.expression b (.call name arguments span)) (if_pos hname)
    · rw [if_neg hname, ← List.append_nil (b.sitesOf arguments)]
      exact .skip (if_neg hname) ((b.settle_resolve arguments).bind fun _ _ => .pure)

theorem settle_evaluateAll (b : Bindings) : (es : List Expr) →
    Settle (b.sitesAll es) (b.evaluateAll es).result
  | [] => by
    rw [sitesAll, evaluateAll]
    exact .pure
  | e :: es => by
    rw [sitesAll, evaluateAll, ← List.append_nil (b.sitesAll es)]
    exact (b.settle_evaluate e).bind fun _ _ => (b.settle_evaluateAll es).bind fun _ _ => .pure

theorem settle_resolve (b : Bindings) : (arguments : List Argument) →
    Settle (b.sitesOf arguments) (b.resolve arguments).result
  | [] => by
    rw [sitesOf, resolve]
    exact .pure
  | .positional value :: rest => by
    rw [sitesOf, resolve, ← List.append_nil (b.sitesOf rest)]
    exact (b.settle_evaluate value).bind fun _ _ => (b.settle_resolve rest).bind fun _ _ => .pure
  | .named name value :: rest => by
    rw [sitesOf, resolve, ← List.append_nil (b.sitesOf rest)]
    exact (b.settle_evaluate value).bind fun _ _ => (b.settle_resolve rest).bind fun _ _ => .pure

end

end Bindings

end SolidScript
