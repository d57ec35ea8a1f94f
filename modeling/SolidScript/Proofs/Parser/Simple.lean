import SolidScript.Proofs.Grammar.Production
import SolidScript.Proofs.Parser.Expression

namespace SolidScript

theorem Rule.spanned_map {α β : Type} (r : Rule α) (f : α → β) :
    Rule.spanned (do return f (← r)) = do
      let (v, span) ← Rule.spanned r
      return (f v, span) := by
  funext ts
  rw [Rule.bind_apply]
  cases hread : r ts with
  | done v rest =>
    rw [Rule.spanned_of_done (v := f v) (Rule.bind_of_done hread _), Rule.spanned_of_done hread]
    rfl
  | stuck rest =>
    rw [Rule.spanned_of_stuck (Rule.bind_of_stuck hread _), Rule.spanned_of_stuck hread]
    rfl

/-- At a name with arguments an expression comes at least behind the arguments. -/
theorem Grammar.expression_rest_of_arguments {t close : Token} {args : List Argument}
    {ts mid : List Token} (ht : t.isName) (h : arguments expression ts = .done (args, close) mid) :
    (expression (t :: ts)).rest.length ≤ mid.length := by
  have hpredicts : Rule.Predicts (ts.length + 1) _ Follow.any _ (arguments expression) :=
    arguments_predicts (expression_inner ts.length) trivial
  obtain ⟨us, rfl, hother⟩ := (hpredicts.below ts (Nat.lt_succ_self _)).done h
  have hcall : expression (t :: us ++ []) = .done _ [] :=
    expression_of_arguments ht (hother [] (.inr trivial)) (Follow.symbols_none _)
  exact (expression_predictsAt (t :: us ++ mid)).rest_le hcall

namespace Parser

theorem terminated_simulates (node : Derivation) (ts : List Token) :
    Simulates (terminated node) (Grammar.terminated node) .never ts :=
  (Simulates.token _).map _

theorem terminated_refuses {node : Derivation} {mid rest : List Token}
    (h : Retreat.symbols openers mid rest) : (terminated node).Refuses mid :=
  (refuses_closer h (by decide)).bind _

theorem terminated_eq_stuck {node : Derivation} {ts rest : List Token}
    (h : Grammar.terminated node ts = .stuck rest) :
    rest = ts ∧ ∀ t ∈ ts.head?, t.isPunct ";" = false := by
  by_cases hlast : ∀ t ∈ ts.head?, t.isPunct ";" = false
  · have hstuck : Grammar.terminated node ts = .stuck ts :=
      Rule.bind_of_stuck (Rule.token_of_not hlast) _
    exact ⟨Outcome.stuck.inj (h.symm.trans hstuck), hlast⟩
  · obtain ⟨t, us, rfl, ht⟩ := Rule.exists_cons_of_not hlast
    have hdone : Grammar.terminated node (t :: us) = .done _ us :=
      Rule.bind_of_done (Rule.token_of_satisfies ht us) _
    cases hdone.symm.trans h

section ModuleCall

variable {t : Token} {ts : List Token}

theorem arguments_closesAt : (Grammar.arguments Grammar.expression).ClosesAt ts := by
  refine .bind (fun t vs h => (Rule.token_eq_done h).2 ▸ List.suffix_cons t vs) fun first us _ => ?_
  refine Rule.closesAt_listUntil fun {ts v rest} h => ?_
  exact ((Grammar.argument_predicts (Grammar.expression_inner (ts.length + 1))).below ts
    (Nat.lt_succ_self _)).suffix h

theorem moduleCall_refuses (h : ∀ t ∈ ts.head?, t.isName = false) : moduleCall.Refuses ts :=
  ((refuses_token h).bind _).spanned.bind _

theorem moduleCall_simulates (ts : List Token) :
    Simulates moduleCall Grammar.moduleCall .never ts := by
  by_cases hname : ∀ t ∈ ts.head?, t.isName = false
  · refine .of_refuses ?_ (Rule.bind_of_stuck (Rule.token_of_not hname) _)
    exact moduleCall_refuses hname
  · obtain ⟨t, us, rfl, ht⟩ := Rule.exists_cons_of_not hname
    have hrule : Grammar.moduleCall (t :: us) = (do
        let found ← Grammar.arguments Grammar.expression
        Grammar.terminated (.moduleCall t.text found.1 ⟨t.offset, found.2.stop⟩) :
        Rule Derivation) us := Rule.bind_of_done (Rule.token_of_satisfies ht us) _
    have hclosed := Simulates.closed (q := Token.isName)
      (g := fun found => terminated (.moduleCall found.1.1.text found.1.2 found.2))
      (f := fun found => Grammar.terminated (.moduleCall found.1.1.text found.1.2 found.2)) ht
      (arguments_simulates (fun vs _ => expression_simulates vs) (Nat.le_refl us.length))
      arguments_closesAt Prod.mk fun _ _ rest _ => terminated_simulates _ rest
    rw [Simulates, hrule]
    exact hclosed

/-- Where a name with arguments and a semicolon cannot be read, an expression comes at least as
far. -/
theorem expression_rest_of_moduleCall {rest : List Token}
    (h : Grammar.moduleCall ts = .stuck rest) :
    (Grammar.expression ts).rest.length ≤ rest.length := by
  by_cases hname : ∀ t ∈ ts.head?, t.isName = false
  · have hread : Grammar.moduleCall ts = .stuck ts := Rule.bind_of_stuck (Rule.token_of_not hname) _
    cases hread.symm.trans h
    exact (Grammar.expression_predictsAt ts).rest_suffix.length_le
  · obtain ⟨t, us, rfl, ht⟩ := Rule.exists_cons_of_not hname
    rw [Grammar.moduleCall, Rule.name, Rule.bind_of_done (Rule.token_of_satisfies ht us)] at h
    cases hargs : Grammar.arguments Grammar.expression us with
    | done found mid =>
      obtain ⟨args, close⟩ := found
      have hmid := Grammar.expression_rest_of_arguments ht hargs
      rw [Rule.bind_of_done hargs] at h
      obtain ⟨rfl, _⟩ := terminated_eq_stuck h
      exact hmid
    | stuck left =>
      rw [Rule.bind_of_stuck hargs] at h
      obtain rfl := Outcome.stuck.inj h
      by_cases hopen : ∀ u ∈ us.head?, u.isPunct "(" = false
      · have hread : Grammar.arguments Grammar.expression us = .stuck us :=
          Rule.bind_of_stuck (Rule.token_of_not hopen) _
        cases hread.symm.trans hargs
        exact Grammar.expression_rest_of_name ht us
      · obtain ⟨u, vs, rfl, hu⟩ := Rule.exists_cons_of_not hopen
        have hprimary : Grammar.primary Grammar.expression (t :: u :: vs) = .stuck left := by
          rw [Grammar.primary_of_isName ht, Grammar.nameOrCall_of_isName ht,
            if_pos (by simpa using hu), Rule.bind_of_stuck hargs]
        rw [Grammar.expression_stuck (Grammar.unaryOp?_of_isName ht) hprimary]
        exact Nat.le_refl _

end ModuleCall

section Assignment

variable {ts : List Token}

theorem assignment_refuses (h : expression.Refuses ts) : assignment.Refuses ts := by
  have hparts : (do
      let first ← peek
      let target ← expression
      let _ ← punct "="
      return (first, target, ← expression)).Refuses ts := by
    cases ts with
    | nil =>
      have hpeek : peek.Refuses [] := rfl
      exact hpeek.bind _
    | cons t ts =>
      have hrest : (do
          let target ← expression
          let _ ← punct "="
          return (t, target, ← expression)).Refuses (t :: ts) := h.bind _
      rw [Refuses, bind_of_value (p := peek) rfl, hrest]
      rfl
  exact hparts.spanned.bind _

theorem assignment_simulates (ts : List Token) :
    Simulates assignment Grammar.assignment .never ts := by
  cases ts with
  | nil =>
    have hexpression : expression.Refuses [] := (expression_simulates []).refuses_of_stuck rfl
    exact .of_refuses (assignment_refuses hexpression) rfl
  | cons t ts =>
    have hparts : Simulates (do
        let target ← expression
        let _ ← punct "="
        return (target, ← expression)) (do
        let target ← Grammar.expression
        let _ ← Rule.punct "="
        return (target, ← Grammar.expression)) (.symbols openers) (t :: ts) := by
      refine (expression_simulates _).bind_refused (fun target mid _ _ => ?_)
        fun _ _ _ hback => (refuses_closer hback (by decide)).bind _
      refine (Simulates.token _).bind_never fun equals us _ _ => ?_
      exact (expression_simulates us).map (target, ·)
    have hblock : Simulates (do
        let first ← peek
        let target ← expression
        let _ ← punct "="
        return (first, target, ← expression)) (do
        return (t, ← (do
          let target ← Grammar.expression
          let _ ← Rule.punct "="
          return (target, ← Grammar.expression) : Rule (Expr × Expr)))) (.symbols openers)
          (t :: ts) := by
      have hmap := hparts.map (t, ·)
      simp only [Simulates, bind_assoc, pure_bind] at hmap ⊢
      rw [bind_of_value (p := peek) rfl]
      exact (Attempt.also_none _).symm ▸ hmap
    have hall := hblock.spanned.bind_refused
      (g := fun found => terminated (.assignment found.1.2.1 found.1.1 found.1.2.2 found.2))
      (f := fun found => Grammar.terminated (.assignment found.1.2.1 found.1.1 found.1.2.2 found.2))
      (fun _ mid _ _ => terminated_simulates _ mid) fun _ _ _ hback => terminated_refuses hback
    have hparser : assignment = (do
        let found ← spanned do
          let first ← peek
          let target ← expression
          let _ ← punct "="
          return (first, target, ← expression)
        terminated (.assignment found.1.2.1 found.1.1 found.1.2.2 found.2)) := rfl
    rw [Rule.spanned_map, Simulates, bind_assoc, ← hparser] at hall
    simp only [pure_bind] at hall
    exact hall

end Assignment

section ExpressionStatement

variable {ts mid rest : List Token}

theorem otherThanCall_of_call {k : Nat}
    (h : ∀ e rest, (expression ts).value? = some (e, rest) → e.IsCall)
    (hwithin : (expression ts).Within k) (hk : k ≤ ts.length) :
    (otherThanCall ts).value? = none ∧ (otherThanCall ts).Within k := by
  refine select_of_none (fun e rest hread => ?_) hwithin hk
  obtain ⟨n, args, span, rfl⟩ := h e rest hread
  rfl

theorem otherThanCall_of_not_call {e : Expr} (h : (expression ts).value? = some (e, rest))
    (hcall : ¬e.IsCall) : otherThanCall ts = ⟨some (e, rest), (expression ts).left?⟩ := by
  refine select_of_some h ?_
  cases e with
  | call n args span => exact absurd ⟨n, args, span, rfl⟩ hcall
  | _ => rfl

theorem expressionStatement_of_not_call {e : Expr} (h : (expression ts).value? = some (e, rest))
    (hcall : ¬e.IsCall) : expressionStatement ts =
      (terminated (.expression e e.span) rest).also (expression ts).left? := by
  have hread := otherThanCall_of_not_call h hcall
  rw [expressionStatement, bind_of_value (by rw [hread]), hread]

/-- Where an expression other than a call and a semicolon cannot be read, what the parser makes of
the expression is a call, or no semicolon follows it. -/
private theorem expression_of_stuck (h : Grammar.expressionStatement ts = .stuck rest) :
    rest.length ≤ ts.length ∧ (expression ts).Within rest.length ∧
      ∀ e left, (expression ts).value? = some (e, left) →
        e.IsCall ∨ (punct ";").Refuses left ∧ rest.length ≤ left.length := by
  cases hread : Grammar.expression ts with
  | stuck left =>
    have hstuck : Grammar.expressionStatement ts = .stuck left := Rule.bind_of_stuck hread _
    cases hstuck.symm.trans h
    obtain ⟨hrest, _, hwithin, hvalue⟩ := (expression_simulates ts).stuck hread
    refine ⟨hrest.length_le, hwithin, fun e mid hmid => ?_⟩
    obtain ⟨hfurther, _, hback⟩ := hvalue e mid hmid
    exact .inr ⟨refuses_closer hback (by decide), Nat.le_of_lt hfurther⟩
  | done e mid =>
    obtain ⟨hmid, hvalue, hwithin⟩ := (expression_simulates ts).done hread
    by_cases hcall : e.IsCall
    · cases (Grammar.expressionStatement_of_call hread hcall).symm.trans h
      refine ⟨hmid.length_le, hwithin, fun other left hleft => .inl ?_⟩
      cases hvalue.symm.trans hleft
      exact hcall
    · rw [Grammar.expressionStatement_of_not_call hread hcall] at h
      obtain ⟨rfl, hsemicolon⟩ := terminated_eq_stuck h
      refine ⟨hmid.length_le, hwithin, fun other left hleft => .inr ?_⟩
      cases hvalue.symm.trans hleft
      exact ⟨refuses_punct hsemicolon, Nat.le_refl _⟩

/-- Where an expression other than a call and a semicolon cannot be read, the attempt to do so fails
no further on. -/
theorem expressionStatement_fails (h : Grammar.expressionStatement ts = .stuck rest) :
    (expressionStatement ts).value? = none ∧ (expressionStatement ts).Within rest.length := by
  obtain ⟨hrest, hwithin, hvalue⟩ := expression_of_stuck h
  by_cases hother : ∃ e left, (expression ts).value? = some (e, left) ∧ ¬e.IsCall
  · obtain ⟨e, left, hleft, hcall⟩ := hother
    obtain ⟨hrefuses, hlen⟩ := (hvalue e left hleft).resolve_left hcall
    have hlast : (terminated (.expression e e.span)).Refuses left := hrefuses.bind _
    rw [expressionStatement_of_not_call hleft hcall, hlast]
    exact ⟨rfl, Attempt.Within.also (Attempt.within_some hlen) hwithin⟩
  · have hcalls (e : Expr) (left : List Token) (hleft : (expression ts).value? = some (e, left)) :
        e.IsCall := Classical.not_not.mp fun hcall => hother ⟨e, left, hleft, hcall⟩
    obtain ⟨hnone, hfailed⟩ := otherThanCall_of_call hcalls hwithin hrest
    rw [expressionStatement]
    exact bind_fails hnone hfailed _

theorem expressionStatement_simulates {e : Expr} (h : Grammar.expression ts = .done e mid)
    (hcall : ¬e.IsCall) :
    Simulates expressionStatement Grammar.expressionStatement .never ts := by
  obtain ⟨hmid, hgives⟩ := (expression_simulates ts).done h
  rw [Simulates, Grammar.expressionStatement_of_not_call h hcall,
    expressionStatement_of_not_call hgives.value hcall]
  exact Attempt.Follows.after_gives (terminated_simulates _ mid) hgives hmid

end ExpressionStatement

section Simple

variable {t : Token} {ts : List Token}

theorem expressionStatement_refuses (h : expression.Refuses ts) :
    expressionStatement.Refuses ts := by
  have hother : otherThanCall.Refuses ts := h.select
  exact hother.bind _

/-- What is tried before a statement that begins with an expression comes no further than it. -/
theorem simple_rest_of_moduleCall {rest : List Token}
    (h : Grammar.moduleCall (t :: ts) = .stuck rest) :
    (Grammar.simple (t :: ts)).rest.length ≤ rest.length := by
  refine Nat.le_trans ?_ (expression_rest_of_moduleCall h)
  cases hread : Grammar.expression (t :: ts) with
  | done target mid => exact (Grammar.simple_rest hread).length_le
  | stuck left =>
    have hstuck : Grammar.simple (t :: ts) = .stuck left := Rule.bind_of_stuck hread _
    rw [hstuck]
    exact Nat.le_refl _

theorem assignment_or_expression (h : ∀ d rest, Grammar.moduleCall (t :: ts) ≠ .done d rest) :
    Simulates (choice [assignment, expressionStatement]) Grammar.simple .never (t :: ts) := by
  have hassignment := assignment_simulates (t :: ts)
  have hleft {rest : List Token} (hsame : Grammar.simple (t :: ts) = Grammar.assignment (t :: ts))
      (hstuck : Grammar.expressionStatement (t :: ts) = .stuck rest)
      (hrest : (Grammar.simple (t :: ts)).rest.length ≤ rest.length) :
      Simulates (choice [assignment, expressionStatement]) Grammar.simple .never (t :: ts) := by
    obtain ⟨hnone, hwithin⟩ := expressionStatement_fails hstuck
    have hsimple : Simulates assignment Grammar.simple .never (t :: ts) := by
      rwa [Simulates, hsame]
    refine hsimple.orElse_right ?_ ?_ <;> rw [choice_singleton]
    · exact hnone
    · exact hwithin.mono hrest
  cases hread : Grammar.expression (t :: ts) with
  | stuck rest =>
    have hsimple : Grammar.simple (t :: ts) = .stuck rest := Rule.bind_of_stuck hread _
    have hstuck : Grammar.assignment (t :: ts) = .stuck rest :=
      Rule.bind_of_stuck (Rule.spanned_of_stuck (Rule.bind_of_stuck hread _)) _
    refine hleft (hsimple.trans hstuck.symm) (Rule.bind_of_stuck hread _) ?_
    rw [hsimple]
    exact Nat.le_refl _
  | done target mid =>
    have hrest := (Grammar.simple_rest hread).length_le
    by_cases hequals : ∀ u ∈ mid.head?, u.isPunct "=" = false
    · have hstuck := Grammar.assignment_of_not_equals hread hequals
      by_cases hcall : target.IsCall
      · have hsimple : Grammar.simple (t :: ts) = .stuck mid := by
          rw [Grammar.simple_of_call hread hcall hequals]
          split
          · next ht =>
            obtain ⟨node, hmodule, _⟩ := Grammar.moduleCall_of_call hread hcall ht
            cases hlast : Grammar.moduleCall (t :: ts) with
            | done d rest => exact absurd hlast (h d rest)
            | stuck rest =>
              rw [hmodule] at hlast
              rw [(terminated_eq_stuck hlast).1]
          · rfl
        exact hleft (hsimple.trans hstuck.symm)
          (Grammar.expressionStatement_of_call hread hcall) hrest
      · have hsame := Grammar.simple_of_not_call hread hcall hequals
        have hvalue : Simulates expressionStatement Grammar.simple .never (t :: ts) := by
          rw [Simulates, hsame]
          exact expressionStatement_simulates hread hcall
        refine Simulates.orElse_left (by rwa [choice_singleton])
          (hassignment.value?_of_stuck hstuck) ?_
        exact (hassignment.stuck hstuck).2.2.within.mono hrest
    · obtain ⟨u, us, rfl, hu⟩ := Rule.exists_cons_of_not hequals
      have hstuck : Grammar.expressionStatement (t :: ts) = .stuck (u :: us) := by
        by_cases hcall : target.IsCall
        · exact Grammar.expressionStatement_of_call hread hcall
        · have hother : u.isPunct ";" = false := Token.not_isPunct_of_isPunct hu (by decide)
          rw [Grammar.expressionStatement_of_not_call hread hcall]
          exact Rule.bind_of_stuck (Rule.token_of_not (by simpa using hother)) _
      exact hleft (Grammar.simple_of_equals hread rfl hu) hstuck hrest

/-- A statement that begins with an expression. Of its three forms, those that are not meant do not
come further than the one that is. -/
theorem simple_simulates (ts : List Token) :
    Simulates (choice [moduleCall, assignment, expressionStatement]) Grammar.simple .never ts := by
  cases ts with
  | nil =>
    refine .of_refuses ?_ rfl
    have hexpression : expression.Refuses [] := (expression_simulates []).refuses_of_stuck rfl
    refine (moduleCall_refuses (by simp)).choice ?_
    simpa using ⟨assignment_refuses hexpression, expressionStatement_refuses hexpression⟩
  | cons t ts =>
    have hcall := moduleCall_simulates (t :: ts)
    cases hread : Grammar.moduleCall (t :: ts) with
    | done d rest =>
      have hsimple : Simulates moduleCall Grammar.simple .never (t :: ts) := by
        rwa [Simulates, Grammar.simple_of_moduleCall hread, ← hread]
      refine hsimple.orElse_back (fun _ _ => id) fun rest hstuck _ => ?_
      cases hstuck.symm.trans (Grammar.simple_of_moduleCall hread)
    | stuck rest =>
      refine Simulates.orElse_left (assignment_or_expression fun d left hdone => ?_)
        (hcall.value?_of_stuck hread) ?_
      · cases hread.symm.trans hdone
      · exact (hcall.stuck hread).2.2.within.mono (simple_rest_of_moduleCall hread)

end Simple

end Parser

end SolidScript
