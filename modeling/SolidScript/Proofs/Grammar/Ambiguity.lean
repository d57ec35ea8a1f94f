import Mathlib.Logic.ExistsUnique
import SolidScript.Proofs.Parser.Program

namespace SolidScript.Grammar

open Rule

/-- A program reads its tokens up to the last one. They are its statements' tokens one after the
other, and each statement is read in the same way from its own tokens alone. -/
theorem program_statements {ts rest : List Token} {statements : List (Derivation × List Token)}
    (h : program ts = .done statements rest) :
    rest = [] ∧ (statements.map Prod.snd).flatten = ts ∧
      ∀ s ∈ statements, statement s.2 = .done s.1 [] := by
  refine loop_invariant
    (P := fun statements us => (statements.map Prod.snd).flatten ++ us = ts ∧
      ∀ s ∈ statements, statement s.2 = .done s.1 [])
    (Q := fun statements us => us = [] ∧ (statements.map Prod.snd).flatten = ts ∧
      ∀ s ∈ statements, statement s.2 = .done s.1 []) ?_ ?_ ⟨rfl, by simp⟩ h
  · rintro statements next us rest ⟨hflat, hall⟩ hround
    cases us with
    | nil => cases hround
    | cons t us =>
      rw [programRound_cons] at hround
      obtain ⟨⟨d, slice⟩, mid, hsliced, hpure⟩ := bind_eq_done_iff.mp hround
      obtain ⟨hread, rfl⟩ := sliced_eq_done hsliced
      cases hpure
      obtain ⟨vs, hvs, hother⟩ := (statement_predictsAt _).done hread
      have hslice : consumed (t :: us) rest = vs := by rw [hvs, consumed_append]
      have halone : statement (vs ++ []) = .done d [] := hother [] (.inr fun _ => nofun)
      rw [List.append_nil] at halone
      refine ⟨?_, ?_⟩
      · rw [hslice, List.map_append, List.flatten_append, List.append_assoc, ← hflat, hvs]
        simp
      · intro s hs
        rcases List.mem_append.mp hs with hs | hs
        · exact hall s hs
        · obtain rfl := List.mem_singleton.mp hs
          rw [hslice]
          exact halone
  · rintro statements v us rest ⟨hflat, hall⟩ hround
    cases us with
    | nil =>
      cases hround
      exact ⟨rfl, by simpa using hflat, hall⟩
    | cons t us =>
      rw [programRound_cons] at hround
      obtain ⟨_, mid, _, hpure⟩ := bind_eq_done_iff.mp hround
      cases hpure

theorem checkDerivations_of_unique {ts : List Token} {p : Production} (hp : p.accepts ts)
    (hunique : ∀ q : Production, q.accepts ts → q = p) : Parser.checkDerivations ts = .ok () := by
  have hfilter : (fun q : Production => q.accepts ts) = fun q => decide (q = p) := by
    funext q
    by_cases hq : q = p
    · simp [hq, hp]
    · have hnot : q.accepts ts = false := Bool.eq_false_iff.mpr fun h => hq (hunique q h)
      simp [hq, hnot]
  have hcount : (Production.all.filter (·.accepts ts)).length = 1 := by
    rw [hfilter]
    cases p <;> rfl
  simp only [Parser.checkDerivations, hcount, if_true]

/-- Exactly one production accepts the tokens of a statement. -/
theorem existsUnique_accepts {ts : List Token} {d : Derivation}
    (h : statement ts = .done d []) : ∃! p : Production, p.accepts ts := by
  obtain ⟨p, hread, hunique⟩ := statement_production h
  refine ⟨p, Production.accepts_iff.mpr ⟨d, hread⟩, fun q hq => ?_⟩
  obtain ⟨e, hother⟩ := Production.accepts_iff.mp hq
  exact hunique q e [] hother

theorem checkDerivations_of_statement {ts : List Token} {d : Derivation}
    (h : statement ts = .done d []) : Parser.checkDerivations ts = .ok () := by
  obtain ⟨p, hp, hunique⟩ := existsUnique_accepts h
  exact checkDerivations_of_unique hp hunique

theorem checkAll_of_forall {statements : List (Derivation × List Token)}
    (h : ∀ s ∈ statements, Parser.checkDerivations s.2 = .ok ()) :
    Parser.checkAll statements = .ok () := by
  induction statements with
  | nil => rfl
  | cons s statements ih =>
    obtain ⟨hfirst, hrest⟩ := List.forall_mem_cons.mp h
    rw [Parser.checkAll, hfirst]
    exact ih hrest

/-- The check of the statements of a program always passes. -/
theorem checkAll_of_program {ts rest : List Token} {statements : List (Derivation × List Token)}
    (h : program ts = .done statements rest) : Parser.checkAll statements = .ok () := by
  obtain ⟨_, _, hall⟩ := program_statements h
  exact checkAll_of_forall fun s hs => checkDerivations_of_statement (hall s hs)

theorem parseTokens_of_done {ts rest : List Token} {statements : List (Derivation × List Token)}
    (h : program ts = .done statements rest) :
    parseTokens ts = .ok (.sequence (statements.map Prod.fst)) := by
  have hvalue := ((Parser.program_refines ts).1 statements rest).mpr h
  rw [parseTokens]
  generalize Parser.program ts = a at hvalue
  obtain ⟨_, left?⟩ := a
  obtain rfl := hvalue
  simp only [checkAll_of_program h]
  rfl

theorem parseTokens_of_stuck {ts rest : List Token} {t : Token}
    (h : program ts = .stuck (t :: rest)) : parseTokens ts = .error (.unexpectedToken t) := by
  obtain ⟨⟨us, rfl⟩, hfails⟩ := (Parser.program_refines ts).2 _ h
  rw [parseTokens, hfails]
  simp [Parser.syntaxError]

theorem parseTokens_of_ended {ts : List Token} (h : program ts = .stuck []) :
    parseTokens ts = .error (.unexpectedEnd (Parser.endOffset ts)) := by
  obtain ⟨_, hfails⟩ := (Parser.program_refines ts).2 _ h
  rw [parseTokens, hfails]
  simp [Parser.syntaxError]

/-- The grammar is never ambiguous: of the eight productions exactly one accepts the tokens of each
statement of a program, so the check never refuses what the grammar reads. -/
theorem program_unambiguous (ts : List Token) :
    (∀ statements rest, (Parser.program ts).value? = some (statements, rest) →
      rest = [] ∧ (statements.map Prod.snd).flatten = ts ∧
        (∀ s ∈ statements,
          (∃! p : Production, p.accepts s.2) ∧ Parser.checkDerivations s.2 = .ok ()) ∧
        Parser.checkAll statements = .ok ()) ∧
      (∀ n t, parseTokens ts ≠ .error (.ambiguous n t)) ∧
      ((∃ d, parseTokens ts = .ok d) ↔
        ∃ statements rest, (Parser.program ts).value? = some (statements, rest)) := by
  have hreads := (Parser.program_refines ts).1
  refine ⟨fun statements rest h => ?_, fun n t => ?_, ?_⟩
  · have hread := (hreads statements rest).mp h
    obtain ⟨hrest, hflat, hall⟩ := program_statements hread
    exact ⟨hrest, hflat,
      fun s hs => ⟨existsUnique_accepts (hall s hs), checkDerivations_of_statement (hall s hs)⟩,
      checkAll_of_program hread⟩
  · cases h : program ts with
    | done statements rest =>
      rw [parseTokens_of_done h]
      exact nofun
    | stuck rest =>
      cases rest with
      | nil =>
        rw [parseTokens_of_ended h]
        exact nofun
      | cons u rest =>
        rw [parseTokens_of_stuck h]
        exact nofun
  · simp only [hreads]
    cases h : program ts with
    | done statements rest => simp [parseTokens_of_done h]
    | stuck rest =>
      cases rest with
      | nil => simp [parseTokens_of_ended h]
      | cons u rest => simp [parseTokens_of_stuck h]

theorem program_unambiguous_call :
    ∃ statements,
      (Parser.program [Token.someName, Token.ofPunct "(", Token.ofPunct ")",
        Token.ofPunct ";"]).value? = some (statements, []) ∧
        ∀ s ∈ statements, ∃! p : Production, p.accepts s.2 := by
  obtain ⟨hstatements, _, _⟩ := program_unambiguous
    [Token.someName, Token.ofPunct "(", Token.ofPunct ")", Token.ofPunct ";"]
  have hvalue := ((Parser.program_refines
    [Token.someName, Token.ofPunct "(", Token.ofPunct ")", Token.ofPunct ";"]).1 _ _).mpr rfl
  refine ⟨_, hvalue, fun s hs => ?_⟩
  obtain ⟨_, _, hall, _⟩ := hstatements _ _ hvalue
  exact (hall s hs).1

end SolidScript.Grammar
