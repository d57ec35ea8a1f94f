import SolidScript.Parser.Program
import SolidScript.Proofs.Parser.Statement

namespace SolidScript

namespace Parser

theorem atEnd_refuses {ts : List Token} (h : ts ≠ []) : atEnd.Refuses ts := by
  cases ts with
  | nil => exact absurd rfl h
  | cons t ts => rfl

section Programs

variable {ts : List Token}

theorem programRound_follows (statements : List (Derivation × List Token)) (ts : List Token) :
    RoundFollows (sliced statement) atEnd (Grammar.programRound statements ts)
      (fun s => statements ++ [s]) (fun _ => statements) .never ts := by
  cases ts with
  | nil =>
    have hstatement : statement.Refuses [] := (statement_simulates []).refuses_of_stuck rfl
    exact .of_refuses hstatement.sliced (List.suffix_refl []) (c := ())
      ⟨rfl, Attempt.within_none _ _⟩ rfl
  | cons t us =>
    have hclose : atEnd.Refuses (t :: us) := rfl
    refine .of_item (statement_simulates (t :: us)).sliced ?_ ?_ ?_ ?_
    · rw [Outcome.map_eq]
      rfl
    · rintro ⟨d, slice⟩ rest hsliced
      exact Grammar.statement_takes _ d rest (Rule.sliced_eq_done hsliced).1
    · intro rest hstuck
      exact hclose.retreats ((statement_simulates (t :: us)).sliced.stuck hstuck).1.length_le
    · rintro _ rest hfurther _ ⟨u, vs, rfl, hu, _⟩
      refine ⟨Refuses.sliced ?_, (atEnd_refuses (by simp)).retreats (Nat.le_of_lt hfurther)⟩
      exact (statement_simulates (u :: vs)).refuses_of_stuck (Grammar.statement_of_else hu vs)

theorem program_simulates (ts : List Token) :
    Simulates program Grammar.program .never ts :=
  Simulates.collected fun statements us _ => programRound_follows statements us

/-- Ordered choice with its furthest failure comes to the rules that never go back: the parser reads
the programs that they read, and where they are stuck is its furthest failure. -/
theorem program_refines (ts : List Token) :
    (∀ statements rest, (program ts).value? = some (statements, rest) ↔
      Grammar.program ts = .done statements rest) ∧
    ∀ rest, Grammar.program ts = .stuck rest →
      rest <:+ ts ∧ program ts = ⟨none, some rest.length⟩ := by
  have h := program_simulates ts
  refine ⟨fun statements rest => ⟨fun hvalue => ?_, fun hread => (h.done hread).2.value⟩, ?_⟩
  · cases hread : Grammar.program ts with
    | done found left =>
      cases (h.done hread).2.value.symm.trans hvalue
      rfl
    | stuck left => cases (h.value?_of_stuck hread).symm.trans hvalue
  · intro rest hstuck
    obtain ⟨hrest, hleft, _⟩ := h.stuck hstuck
    exact ⟨hrest, by rw [← h.value?_of_stuck hstuck, ← hleft]⟩

end Programs

section Productions

variable {p : Production} {ts : List Token}

theorem production_simulates (hp : p ≠ .expression) (ts : List Token) :
    Simulates (production statement p) (p.parse Grammar.statement) .dangling ts := by
  have hsub : ∀ us : List Token, us.length < ts.length →
      Simulates statement Grammar.statement .dangling us := fun us _ => statement_simulates us
  cases p with
  | empty => exact Attempt.Follows.never (emptyStatement_simulates ts) _
  | compound => exact Attempt.Follows.never (compound_simulates hsub (Nat.le_refl _)) _
  | branch => exact branch_simulates hsub (Nat.le_refl _)
  | moduleDef => exact moduleDef_simulates hsub (Nat.le_refl _)
  | functionDef => exact Attempt.Follows.never (functionDef_simulates ts) _
  | moduleCall => exact Attempt.Follows.never (moduleCall_simulates ts) _
  | assignment => exact Attempt.Follows.never (assignment_simulates ts) _
  | expression => exact absurd rfl hp

/-- A production reads the same up to the end as its rule. -/
theorem production_value?_nil_iff {d : Derivation} :
    (production statement p ts).value? = some (d, []) ↔
      p.parse Grammar.statement ts = .done d [] := by
  by_cases hp : p = .expression
  · subst hp
    cases hread : Production.expression.parse Grammar.statement ts with
    | done e rest =>
      obtain ⟨e, mid, he, _⟩ := Rule.bind_eq_done_iff.mp hread
      have hcall : ¬e.IsCall := fun hcall => by
        cases (Grammar.expressionStatement_of_call he hcall).symm.trans hread
      rw [← hread]
      exact (expressionStatement_simulates he hcall).value?_nil_iff
    | stuck rest => simp [production, (expressionStatement_fails hread).1]
  · exact (production_simulates hp ts).value?_nil_iff

end Productions

/-- What reads up to the end is a value with no tokens behind it. -/
theorem isSome_value?_atEnd_iff {α : Type} {q : Parser α} {ts : List Token} :
    (((do let _ ← q; atEnd : Parser Unit) ts).value?).isSome ↔
      ∃ v, (q ts).value? = some (v, []) := by
  cases hresult : (q ts).value? with
  | none => simp [bind_of_none hresult]
  | some found =>
    obtain ⟨v, mid⟩ := found
    rw [bind_of_value hresult]
    cases mid <;> simp [atEnd, Attempt.also]

end Parser

/-- A production accepts exactly the tokens that its rule reads to the end. -/
theorem Production.accepts_iff {p : Production} {ts : List Token} :
    p.accepts ts ↔ ∃ d, p.parse Grammar.statement ts = .done d [] := by
  rw [accepts, Parser.isSome_value?_atEnd_iff]
  exact exists_congr fun _ => Parser.production_value?_nil_iff

end SolidScript
