import SolidScript.Proofs.Grammar.Recursion.Expression

namespace SolidScript.Grammar

open Rule

section Statements

variable {n : Nat} {sub other : Rule Derivation}

theorem terminated_agree (node : Derivation) :
    Agree n (fun _ => 1) (terminated node) (terminated node) :=
  (Agree.token _).bind fun _ => .pure rfl

theorem parameter_agree : Agree n (fun _ => 1) parameter parameter := by
  refine (Agree.token _).bind fun name => (Agree.accept _).bind fun taken => ?_
  cases taken with
  | true => exact expression_agree.bind fun value => .pure rfl
  | false => exact .pure rfl

theorem parameters_agree : Agree n (fun _ => 1) parameters parameters :=
  (Agree.token _).bind fun _ => (listUntil_agree parameter_agree).bind fun _ => .pure rfl

theorem blockRound_agree {items : List Derivation} (h : Agree n (fun _ => 1) sub other) :
    Agree n Round.cost (blockRound sub items) (blockRound other items) := by
  refine (Agree.accept _).bind fun taken => ?_
  cases taken with
  | true => exact .pure rfl
  | false => exact (h.limit (by simp)).bind fun next => .pure rfl

private theorem compound_agree (h : Agree n (fun _ => 1) sub other) :
    Agree (n + 1) (fun _ => 1) (compound sub) (compound other) := by
  refine Agree.bind (Agree.spanned (c := fun _ => 1) ?_) fun items => .pure rfl
  exact (Agree.token _).bind fun _ =>
    (Agree.loop fun _ => blockRound_agree h).mono (by omega) (by simp)

private theorem branch_agree (h : Agree n (fun _ => 1) sub other) :
    Agree (n + 1) (fun _ => 1) (branch sub) (branch other) := by
  refine Agree.bind (Agree.spanned (c := fun _ => 1) ?_) fun parts => .pure rfl
  refine (Agree.token _).bind fun _ => (Agree.token _).bind fun _ => ?_
  refine expression_agree.bind fun condition => (Agree.token _).bind fun _ => ?_
  refine (h.limit (by omega)).bind fun thenBranch => (Agree.accept _).bind fun taken => ?_
  cases taken with
  | true => exact (h.limit (by simp; omega)).bind fun elseBranch => .pure rfl
  | false => exact .pure rfl

private theorem moduleDef_agree (h : Agree n (fun _ => 1) sub other) :
    Agree (n + 1) (fun _ => 1) (moduleDef sub) (moduleDef other) := by
  refine Agree.bind (Agree.spanned (c := fun _ => 1) ?_) fun parts => .pure rfl
  refine (Agree.token _).bind fun _ => (Agree.token _).bind fun name => ?_
  exact parameters_agree.bind fun params => (h.limit (by omega)).bind fun body => .pure rfl

private theorem functionDef_agree : Agree n (fun _ => 1) functionDef functionDef := by
  refine Agree.bind (Agree.spanned (c := fun _ => 1) ?_)
    fun parts => (terminated_agree _).mono (Nat.sub_le ..) (by simp)
  refine (Agree.token _).bind fun _ => (Agree.token _).bind fun name => ?_
  exact parameters_agree.bind fun params => (Agree.token _).bind fun _ =>
    expression_agree.bind fun body => .pure rfl

theorem simpleRest_agree (t : Token) (target : Expr) :
    Agree n (fun _ => 1) (simpleRest t target) (simpleRest t target) := by
  refine (Agree.accept _).bind fun taken => ?_
  cases taken with
  | true =>
    exact expression_agree.sliced.bind fun value =>
      (terminated_agree _).mono (Nat.le_refl _) (by simp)
  | false =>
    cases target with
    | call name args span =>
      by_cases hname : t.isName
      · simpa [hname] using terminated_agree _
      · simpa [hname] using Agree.refuse
    | _ => exact (terminated_agree _).mono (Nat.le_refl _) (by simp)

theorem simple_takes : Takes (fun _ => 1) simple := by
  intro ts d rest hread
  cases ts with
  | nil => cases hread
  | cons t ts =>
    obtain ⟨target, mid, htarget, hrest⟩ := bind_eq_done_iff.mp hread
    have hfirst : mid.length + 1 ≤ (t :: ts).length := expression_takes _ _ _ htarget
    have hsecond : rest.length + 1 ≤ mid.length :=
      Agree.takes_of_forall (fun _ => simpleRest_agree t target) mid d rest hrest
    exact Nat.le_trans hsecond (by omega)

/-- The productions that a first token can announce, each with its token. -/
theorem announced?_cases {t : Token} {p : Production} (h : Production.announced? t = some p) :
    (p = .empty ∧ t.isPunct ";") ∨ (p = .compound ∧ t.isPunct "\x7b") ∨
      (p = .branch ∧ t.isKeyword "if") ∨ (p = .moduleDef ∧ t.isKeyword "module") ∨
      (p = .functionDef ∧ t.isKeyword "function") := by
  unfold Production.announced? at h
  split at h
  · next hfirst => exact .inl ⟨(Option.some.inj h).symm, hfirst⟩
  · split at h
    · next hfirst => exact .inr (.inl ⟨(Option.some.inj h).symm, hfirst⟩)
    · split at h
      · next hfirst => exact .inr (.inr (.inl ⟨(Option.some.inj h).symm, hfirst⟩))
      · split at h
        · next hfirst => exact .inr (.inr (.inr (.inl ⟨(Option.some.inj h).symm, hfirst⟩)))
        · split at h
          · next hfirst => exact .inr (.inr (.inr (.inr ⟨(Option.some.inj h).symm, hfirst⟩)))
          · cases h

theorem announced_agree {t : Token} {p : Production} (ht : Production.announced? t = some p)
    (h : Agree n (fun _ => 1) sub other) :
    Agree (n + 1) (fun _ => 1) (p.parse sub) (p.parse other) := by
  obtain ⟨rfl, _⟩ | ⟨rfl, _⟩ | ⟨rfl, _⟩ | ⟨rfl, _⟩ | ⟨rfl, _⟩ := announced?_cases ht
  · exact (Agree.token _).bind fun _ => .pure rfl
  · exact compound_agree h
  · exact branch_agree h
  · exact moduleDef_agree h
  · exact functionDef_agree

theorem anyStatement_agree (h : Agree n (fun _ => 1) sub other) :
    Agree (n + 1) (fun _ => 1) (anyStatement sub) (anyStatement other) where
  eq ts hlen := by
    cases ts with
    | nil => rfl
    | cons t ts =>
      simp only [anyStatement]
      split
      · next p ht => exact (announced_agree ht h).eq _ hlen
      · rfl
  takes ts d rest hlen hread := by
    cases ts with
    | nil => cases hread
    | cons t ts =>
      simp only [anyStatement] at hread
      split at hread
      · next p ht => exact (announced_agree ht h).takes _ d rest hlen hread
      · exact simple_takes _ d rest hread

/-- A statement takes at least one token. -/
theorem statement_takes : Takes (fun _ => 1) statement := knot_takes anyStatement_agree

/-- A statement is one of the productions over statements. -/
theorem statement_eq : statement = anyStatement statement := knot_eq anyStatement_agree

end Statements

end SolidScript.Grammar
