import SolidScript.Proofs.Grammar.Ambiguity

namespace SolidScript.Grammar

open Rule

theorem not_else_of_statement {t : Token} {ts rest : List Token} {d : Derivation}
    (h : statement (t :: ts) = .done d rest) : t.isKeyword "else" = false := by
  refine Bool.eq_false_iff.mpr fun helse => ?_
  rw [statement_of_else helse] at h
  cases h

variable {ts us : List Token} {ss : List (Derivation × List Token)}

/-- A statement that is read from its own tokens is not empty. -/
theorem exists_cons_of_statement {d : Derivation} (h : statement ts = .done d []) :
    ∃ t rest, ts = t :: rest := by
  cases ts with
  | nil =>
    have htakes : 0 + 1 ≤ 0 := statement_takes [] d [] h
    omega
  | cons t rest => exact ⟨t, rest, rfl⟩

theorem statement_append {d : Derivation} (h : statement ts = .done d [])
    (hnext : Follow.notElse us.head?) : statement (ts ++ us) = .done d us := by
  obtain ⟨vs, hvs, hother⟩ := (statement_predictsAt ts).done h
  rw [List.append_nil] at hvs
  rw [hvs]
  exact hother us (.inr hnext)

/-- Statements may follow each other. -/
theorem head_notElse (h : ∀ s ∈ ss, statement s.2 = .done s.1 []) :
    Follow.notElse (ss.map Prod.snd).flatten.head? := by
  cases ss with
  | nil => exact fun _ => nofun
  | cons s ss =>
    have hfirst := h s List.mem_cons_self
    obtain ⟨t, rest, ht⟩ := exists_cons_of_statement hfirst
    rw [ht] at hfirst
    rw [List.map_cons, List.flatten_cons, ht]
    rintro _ ⟨⟩
    exact not_else_of_statement hfirst

theorem program_of_statements (h : ∀ s ∈ ss, statement s.2 = .done s.1 []) :
    program (ss.map Prod.snd).flatten = .done ss [] := by
  have hloop (done : List (Derivation × List Token)) :
      loop programRound done (ss.map Prod.snd).flatten = .done (done ++ ss) [] := by
    induction ss generalizing done with
    | nil =>
      rw [List.append_nil]
      exact loop_of_finished (programRound_nil done)
    | cons s ss ih =>
      obtain ⟨d, vs⟩ := s
      obtain ⟨hfirst, hrest⟩ := List.forall_mem_cons.mp h
      obtain ⟨t, vs, rfl⟩ := exists_cons_of_statement hfirst
      have hread : statement (t :: vs ++ (ss.map Prod.snd).flatten) =
          .done d (ss.map Prod.snd).flatten := statement_append hfirst (head_notElse hrest)
      have hround : programRound done (t :: vs ++ (ss.map Prod.snd).flatten) =
          .done (.again (done ++ [(d, t :: vs)])) (ss.map Prod.snd).flatten := by
        rw [List.cons_append, programRound_cons, bind_apply, ← List.cons_append,
          sliced_of_done hread, consumed_append]
        rfl
      rw [List.map_cons, List.flatten_cons, loop_eq done programRound_takes, bind_apply, hround]
      change loop programRound (done ++ [(d, t :: vs)]) _ = _
      rw [ih hrest, List.append_assoc, List.singleton_append]
  exact hloop []

theorem program_append {ss' : List (Derivation × List Token)} (hts : program ts = .done ss [])
    (hus : program us = .done ss' []) : program (ts ++ us) = .done (ss ++ ss') [] := by
  obtain ⟨_, rfl, hfirst⟩ := program_statements hts
  obtain ⟨_, rfl, hsecond⟩ := program_statements hus
  rw [← List.flatten_append, ← List.map_append]
  apply program_of_statements
  intro s hs
  exact (List.mem_append.mp hs).elim (hfirst s) (hsecond s)

theorem program_of_parseTokens {d : Derivation} (h : parseTokens ts = .ok d) :
    ∃ ss, program ts = .done ss [] ∧ d = .sequence (ss.map Prod.fst) := by
  cases hread : program ts with
  | stuck rest =>
    cases rest with
    | nil => cases (parseTokens_of_ended hread).symm.trans h
    | cons t rest => cases (parseTokens_of_stuck hread).symm.trans h
  | done ss rest =>
    obtain ⟨rfl, _⟩ := program_statements hread
    rw [parseTokens_of_done hread] at h
    exact ⟨ss, rfl, (Except.ok.inj h).symm⟩

end SolidScript.Grammar
