import SolidScript.Proofs.Grammar.Prediction.Production

namespace SolidScript.Grammar

open Rule

section Statements

theorem simpleRest_of_equals {t u : Token} {target : Expr} (hu : u.isPunct "=") (us : List Token) :
    simpleRest t target (u :: us) = (do
      let (value, slice) ← sliced expression
      terminated (.assignment target t value ⟨t.offset, (Token.spanOf slice).stop⟩) :
      Rule Derivation) us := by
  change (Rule.accept _ (u :: us)).andThen _ = _
  rw [accept_of_satisfies hu]
  rfl

theorem simpleRest_of_call {t : Token} {n : String} {args : List Argument} {span : Span}
    {ts : List Token} (h : ∀ u ∈ ts.head?, u.isPunct "=" = false) :
    simpleRest t (.call n args span) ts =
      (if t.isName then terminated (.moduleCall n args span) else refuse : Rule Derivation) ts := by
  change (Rule.accept _ ts).andThen _ = _
  rw [accept_of_not h]
  rfl

theorem simpleRest_of_not_call {t : Token} {e : Expr} {ts : List Token}
    (hcall : ∀ n args span, e ≠ .call n args span) (h : ∀ u ∈ ts.head?, u.isPunct "=" = false) :
    simpleRest t e ts = terminated (.expression e e.span) ts := by
  change (Rule.accept _ ts).andThen _ = _
  rw [accept_of_not h]
  cases e with
  | call n args span => exact absurd rfl (hcall n args span)
  | _ => rfl

/-- Whatever stands at the start of a statement, an equals sign and a value may follow. -/
private theorem simpleRest_opens (t : Token) (target : Expr) :
    Opens (simpleRest t target) (Follow.symbols closers) (fun _ => Follow.any) := by
  have hvalue : Predicts 0 (fun _ => 1) Follow.any (fun _ => Follow.any) (do
      let (value, slice) ← sliced expression
      terminated (.assignment target t value ⟨t.offset, (Token.spanOf slice).stop⟩) :
      Rule Derivation) :=
    (expression_predicts.sliced.start (Nat.le_refl 0) trivial).ends fun _ =>
      terminated_predicts _ (Follow.symbols_ofPunct (by decide))
  obtain ⟨us, d, hus, _⟩ := hvalue.opens
  refine ⟨Token.ofPunct "=" :: us, d, ?_, fun _ _ => Follow.symbols_ofPunct (by decide)⟩
  intro rest hrest
  rw [List.cons_append, simpleRest_of_equals (by simp)]
  exact hus rest hrest

theorem simpleRest_predictsAt (t : Token) (target : Expr) (ts : List Token) :
    PredictsAt (simpleRest t target) (fun _ => Follow.any) ts := by
  have hvalue : Predicts ts.length (fun _ => 1) Follow.any (fun _ => Follow.any) (do
      let (value, slice) ← sliced expression
      terminated (.assignment target t value ⟨t.offset, (Token.spanOf slice).stop⟩) :
      Rule Derivation) :=
    (expression_predicts.sliced.start (Nat.le_refl _) trivial).ends fun _ =>
      terminated_predicts _ (Follow.symbols_ofPunct (by decide))
  have hnode (node : Derivation) : Predicts (ts.length + 1) (fun _ => 1) Follow.any
      (fun _ => Follow.any) (terminated node) := terminated_predicts node trivial
  cases ts with
  | nil =>
    refine .nil ?_ (simpleRest_opens t target)
    cases target with
    | call n args span =>
      rw [simpleRest_of_call (by simp)]
      split <;> rfl
    | _ => rfl
  | cons u us =>
    by_cases hu : u.isPunct "="
    · exact .prepend [u] (simpleRest_of_equals hu) (hvalue.below us (by simp))
    · have hequals (us : List Token) : ∀ v ∈ (u :: us).head?, v.isPunct "=" = false := by
        simpa using hu
      by_cases hcall : ∃ n args span, target = .call n args span
      · obtain ⟨n, args, span, rfl⟩ := hcall
        by_cases hname : t.isName
        · have hnode := hnode (.moduleCall n args span)
          refine .of_head (fun us => ?_) hnode.takes (hnode.below _ (by omega))
          rw [simpleRest_of_call (hequals us), if_pos hname]
        · refine .of_stuck [] fun us => ?_
          rw [List.nil_append, simpleRest_of_call (hequals us), if_neg hname]
          rfl
      · have hnode := hnode (.expression target target.span)
        refine .of_head (fun us => ?_) hnode.takes (hnode.below _ (by omega))
        exact simpleRest_of_not_call (by simpa using hcall) (hequals us)

theorem simple_predictsAt (t : Token) (ts : List Token) :
    PredictsAt simple (fun _ => Follow.any) (t :: ts) := by
  have htakes (target : Expr) : Takes (fun _ => 1) (simpleRest t target) :=
    Agree.takes_of_forall fun _ => simpleRest_agree t target
  refine .of_head (s := (do simpleRest t (← expression) : Rule Derivation)) (fun us => rfl) ?_ ?_
  · intro us d rest hread
    obtain ⟨target, mid, htarget, hrest⟩ := bind_eq_done_iff.mp hread
    have hfirst : mid.length + 1 ≤ us.length := expression_takes us target mid htarget
    have hsecond : rest.length + 1 ≤ mid.length := htakes target mid d rest hrest
    exact Nat.le_trans hsecond (by omega)
  · apply (expression_predictsAt _).bind
    · exact fun target mid _ => simpleRest_predictsAt t target mid
    · exact fun target => simpleRest_opens t target
    · intro target mid d hread
      have hone : mid.length + 1 ≤ mid.length := htakes target mid d mid hread
      omega

theorem announced_predicts {n : Nat} {sub : Rule Derivation} {t : Token} {p : Production}
    (ht : Production.announced? t = some p)
    (h : Predicts n (fun _ => 1) (· = some (Token.ofPunct ";")) (fun _ => Follow.notElse) sub) :
    Predicts (n + 1) (fun _ => 1) Follow.any (fun _ => Follow.notElse) (p.parse sub) := by
  obtain ⟨rfl, _⟩ | ⟨rfl, _⟩ | ⟨rfl, _⟩ | ⟨rfl, _⟩ | ⟨rfl, _⟩ := announced?_cases ht
  · exact (last_predicts trivial).narrow fun _ _ _ => trivial
  · exact ((compound_predicts h).start (Nat.le_refl _) trivial).narrow fun _ _ _ => trivial
  · exact (branch_predicts h).start (Nat.le_refl _) trivial
  · exact (moduleDef_predicts h).start (Nat.le_refl _) trivial
  · exact (functionDef_predicts.start (Nat.le_refl _) trivial).narrow fun _ _ _ => trivial

theorem anyStatement_predicts {n : Nat} {sub : Rule Derivation}
    (h : Predicts n (fun _ => 1) (· = some (Token.ofPunct ";")) (fun _ => Follow.notElse) sub) :
    Predicts (n + 1) (fun _ => 1) (· = some (Token.ofPunct ";")) (fun _ => Follow.notElse)
      (anyStatement sub) := by
  have hopens : Opens (anyStatement sub) (· = some (Token.ofPunct ";")) (fun _ => Follow.notElse) :=
    ⟨[Token.ofPunct ";"], _, fun _ _ => rfl, fun _ _ => rfl⟩
  refine ⟨Agree.takes_of_forall fun _ => (anyStatement_agree h.agree).limit (Nat.le_succ _),
    fun ts hlen => ?_, hopens⟩
  cases ts with
  | nil => exact .nil rfl hopens
  | cons t ts =>
    cases ht : Production.announced? t with
    | some p =>
      have hp := announced_predicts ht h
      exact .of_head (fun us => by simp only [anyStatement, ht]) hp.takes (hp.below _ hlen)
    | none =>
      refine .of_head (fun us => by simp only [anyStatement, ht]) simple_takes ?_
      exact (simple_predictsAt t ts).mono fun _ _ _ => trivial

/-- Statements predict on lists of any length, since the statements inside a statement start at
least one token later. -/
theorem statement_predicts (n : Nat) :
    Predicts n (fun _ => 1) (· = some (Token.ofPunct ";")) (fun _ => Follow.notElse) statement := by
  induction n with
  | zero =>
    have hopens : Opens statement (· = some (Token.ofPunct ";")) (fun _ => Follow.notElse) := by
      rw [statement_eq]
      exact ⟨[Token.ofPunct ";"], _, fun _ _ => rfl, fun _ _ => rfl⟩
    exact ⟨statement_takes, fun _ hlen => absurd hlen (Nat.not_lt_zero _), hopens⟩
  | succ n ih =>
    rw [statement_eq]
    exact anyStatement_predicts ih

theorem statement_predictsAt (ts : List Token) :
    PredictsAt statement (fun _ => Follow.notElse) ts :=
  (statement_predicts _).below ts (Nat.lt_succ_self _)

end Statements

section Programs

theorem programRound_takes (statements : List (Derivation × List Token)) :
    Takes Round.cost (programRound statements) := by
  refine Agree.takes_of_forall fun n => (Agree.look _).bind fun ended => ?_
  cases ended with
  | true => exact .pure rfl
  | false => exact (statement_predicts n).agree.sliced.bind fun next => .pure rfl

theorem programRound_nil (statements : List (Derivation × List Token)) :
    programRound statements [] = .done (.finished statements) [] := rfl

theorem programRound_cons (statements : List (Derivation × List Token)) (t : Token)
    (ts : List Token) :
    programRound statements (t :: ts) = (do return .again (statements ++ [← sliced statement]) :
      Rule (Round _ (List (Derivation × List Token)))) (t :: ts) := rfl

private theorem programRound_predictsAt (statements : List (Derivation × List Token))
    (ts : List Token) :
    PredictsAt (programRound statements) (Round.follow Follow.notElse fun _ => (· = none)) ts := by
  cases ts with
  | nil =>
    refine .of_done [] (programRound_nil statements) fun other hother => ?_
    have hnil : other = [] := List.head?_eq_none_iff.mp (hother.elim id id)
    rw [hnil]
    rfl
  | cons t ts =>
    have hnext : Predicts ((t :: ts).length + 1) (fun _ => 1) (· = some (Token.ofPunct ";"))
        (Round.follow Follow.notElse fun _ => (· = none))
        (do return .again (statements ++ [← sliced statement]) :
          Rule (Round _ (List (Derivation × List Token)))) :=
      (statement_predicts _).sliced.map fun _ _ => id
    exact .of_head (programRound_cons statements t) hnext.takes (hnext.below _ (Nat.lt_succ_self _))

/-- A program reads all tokens or gets stuck; where it is stuck at the end, more tokens make it a
program. -/
theorem program_predictsAt (ts : List Token) : PredictsAt program (fun _ => (· = none)) ts := by
  have hprogram : Predicts (ts.length + 1) (fun _ => 0) Follow.notElse (fun _ => (· = none))
      program := by
    refine .loop [] programRound_takes (fun statements ts _ => ?_) (fun statements => ?_) ?_
    · exact programRound_predictsAt statements ts
    · refine ⟨[], statements, fun rest hrest => ?_, fun rest hrest => ?_⟩
      · rw [List.head?_eq_none_iff.mp hrest]
        rfl
      · rw [List.head?_eq_none_iff.mp hrest]
        exact fun _ => nofun
    · rintro statements ts v _ _ rfl
      exact fun _ => nofun
  exact hprogram.below ts (Nat.lt_succ_self _)

end Programs

end SolidScript.Grammar
