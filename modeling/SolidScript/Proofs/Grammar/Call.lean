import SolidScript.Proofs.Grammar.Prediction.Statement

namespace SolidScript

/-- The expression is a call. -/
def Expr.IsCall (e : Expr) : Prop := ∃ n args span, e = .call n args span

namespace Grammar

open Rule

variable {sub operand : Rule Expr} {e : Expr} {ts rest : List Token}

private theorem indices_call {object : Expr} (h : loop (indexRound sub) object ts = .done e rest)
    (hcall : e.IsCall) : e = object ∧ rest = ts := by
  refine loop_unchanged (P := Expr.IsCall) ?_ ?_ h hcall
  · rintro object next ts rest hround ⟨n, args, span, rfl⟩
    obtain ⟨taken, mid, _, hmore⟩ := bind_eq_done_iff.mp hround
    cases taken with
    | false => cases hmore
    | true =>
      obtain ⟨i, left, _, hlast⟩ := bind_eq_done_iff.mp hmore
      obtain ⟨last, left, _, hpure⟩ := bind_eq_done_iff.mp hlast
      cases hpure
  · intro object v ts rest hround
    obtain ⟨taken, mid, htaken, hmore⟩ := bind_eq_done_iff.mp hround
    cases taken with
    | false =>
      cases hmore
      exact ⟨rfl, (accept_eq_false htaken).1⟩
    | true =>
      obtain ⟨i, left, _, hlast⟩ := bind_eq_done_iff.mp hmore
      obtain ⟨last, left, _, hpure⟩ := bind_eq_done_iff.mp hlast
      cases hpure

private theorem operations_call {level : List BinaryOp} {left : Expr}
    (h : loop (operationRound level operand) left ts = .done e rest) (hcall : e.IsCall) :
    e = left ∧ rest = ts := by
  refine loop_unchanged (P := Expr.IsCall) ?_ ?_ h hcall
  · rintro left next ts rest hround ⟨n, args, span, rfl⟩
    obtain ⟨op, mid, _, hmore⟩ := bind_eq_done_iff.mp hround
    cases op with
    | none => cases hmore
    | some op =>
      obtain ⟨right, after, _, hpure⟩ := bind_eq_done_iff.mp hmore
      cases hpure
  · intro left v ts rest hround
    obtain ⟨op, mid, hop, hmore⟩ := bind_eq_done_iff.mp hround
    cases op with
    | none =>
      cases hmore
      exact ⟨rfl, optional_eq_none hop⟩
    | some op =>
      obtain ⟨right, after, _, hpure⟩ := bind_eq_done_iff.mp hmore
      cases hpure

private theorem operation_call (h : operation sub ts = .done e rest) (hcall : e.IsCall) :
    unary (indexed sub) ts = .done e rest := by
  have hlevels (levels : List (List BinaryOp)) {operand : Rule Expr}
      (h : levels.foldl (fun operand level => levelled level operand) operand ts = .done e rest) :
      operand ts = .done e rest := by
    induction levels generalizing operand with
    | nil => exact h
    | cons level levels ih =>
      obtain ⟨left, mid, hleft, hmore⟩ := bind_eq_done_iff.mp (ih h)
      obtain ⟨rfl, rfl⟩ := operations_call hmore hcall
      exact hleft
  exact hlevels BinaryOp.levels h

private theorem conditional_call (h : conditional sub ts = .done e rest) (hcall : e.IsCall) :
    operation sub ts = .done e rest := by
  obtain ⟨condition, mid, hcondition, hmore⟩ := bind_eq_done_iff.mp h
  obtain ⟨asked, after, hasked, hmore⟩ := bind_eq_done_iff.mp hmore
  cases asked with
  | false =>
    cases hmore
    rwa [(accept_eq_false hasked).1]
  | true =>
    obtain ⟨n, args, span, rfl⟩ := hcall
    obtain ⟨a, left, _, hmore⟩ := bind_eq_done_iff.mp hmore
    obtain ⟨colon, left, _, hmore⟩ := bind_eq_done_iff.mp hmore
    obtain ⟨b, left, _, hpure⟩ := bind_eq_done_iff.mp hmore
    cases hpure

/-- A call that begins with a name is that name with its arguments. -/
theorem arguments_of_expression {t : Token} {n : String} {args : List Argument} {span : Span}
    (ht : t.isName) (h : expression (t :: ts) = .done (.call n args span) rest) :
    ∃ close, arguments expression ts = .done (args, close) rest ∧ n = t.text ∧
      span = ⟨t.offset, close.stop⟩ := by
  have hcall : (Expr.call n args span).IsCall := ⟨n, args, span, rfl⟩
  rw [expression_eq] at h
  have hunary := operation_call (conditional_call h hcall) hcall
  have hindexed : indexed expression (t :: ts) = .done (.call n args span) rest := by
    simpa only [unary, unaryOp?_of_isName ht] using hunary
  obtain ⟨object, mid, hobject, hmore⟩ := bind_eq_done_iff.mp hindexed
  obtain ⟨rfl, rfl⟩ := indices_call hmore hcall
  rw [primary_of_isName ht, nameOrCall_of_isName ht] at hobject
  split at hobject
  · obtain ⟨⟨args, close⟩, left, hargs, hpure⟩ := bind_eq_done_iff.mp hobject
    cases hpure
    exact ⟨close, hargs, rfl, rfl⟩
  · cases hobject

/-- A name with arguments is a call wherever an expression can end. -/
theorem expression_of_arguments {t close : Token} {args : List Argument} (ht : t.isName)
    (h : arguments expression ts = .done (args, close) rest)
    (hrest : Follow.symbols closers rest.head?) :
    expression (t :: ts) = .done (.call t.text args ⟨t.offset, close.stop⟩) rest := by
  have hpredicts : Predicts (ts.length + 1) _ Follow.any _ (arguments expression) :=
    arguments_predicts (expression_inner ts.length) trivial
  obtain ⟨us, rfl, hother⟩ := (hpredicts.below ts (Nat.lt_succ_self _)).done h
  have hread : Reads (primary expression) (t :: us) (.call t.text args ⟨t.offset, close.stop⟩)
      (Follow.symbols ("[" :: operandFollow)) := by
    intro other _
    have hargs := hother other (.inr trivial)
    have hopen : (us ++ other).head?.any (·.isPunct "(") = true := by
      obtain ⟨first, left, hfirst, _⟩ := bind_eq_done_iff.mp hargs
      obtain ⟨hpunct, hus⟩ := token_eq_done hfirst
      rw [hus]
      exact hpunct
    rw [List.cons_append, primary_of_isName ht, nameOrCall_of_isName ht, if_pos hopen, bind_apply,
      hargs]
    rfl
  rw [expression_eq]
  exact conditional_reads_primary (unaryOp?_of_isName ht) hread rest hrest

end Grammar

end SolidScript
