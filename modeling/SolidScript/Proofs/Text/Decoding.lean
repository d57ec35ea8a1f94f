import Mathlib.Logic.Relation
import SolidScript.Text.Escape

namespace SolidScript.Escape

/-- One turn of decoding: the characters that the front of a text stands for, and the text behind
it. -/
def turn : List Char → List Char × List Char
  | '\\' :: 'n' :: cs => (['\n'], cs)
  | '\\' :: 't' :: cs => (['\t'], cs)
  | '\\' :: 'r' :: cs => (['\r'], cs)
  | '\\' :: 'u' :: a :: b :: c :: d :: cs =>
    match unicode? a b c d with
    | some spelled => ([spelled], cs)
    | none => (['\\', 'u'], a :: b :: c :: d :: cs)
  | '\\' :: 'u' :: cs => (['\\', 'u'], cs)
  | '\\' :: c :: cs => ([c], cs)
  | c :: cs => ([c], cs)
  | [] => ([], [])

/-- Decoding the one text comes to the other one: it is what is left after some turns. -/
def ComesTo : List Char → List Char → Prop :=
  Relation.ReflTransGen fun cs rest => cs ≠ [] ∧ (turn cs).2 = rest

/-- Every backslash in the text protects the character behind it, and there is no quote but
protected ones. -/
inductive Guarded : List Char → Prop
  | nil : Guarded []
  | plain {c : Char} {cs : List Char} (hslash : c ≠ '\\') (hquote : c ≠ '"')
    (hrest : Guarded cs) : Guarded (c :: cs)
  | escaped {c : Char} {cs : List Char} (hrest : Guarded cs) : Guarded ('\\' :: c :: cs)

variable {c : Char} {cs rest : List Char}

/-- Decoding is one turn after the other. -/
theorem decode_turn (cs : List Char) : decode cs = (turn cs).1 ++ decode (turn cs).2 := by
  unfold turn
  split
  case h_4 a b c d cs =>
    rw [decode]
    cases unicode? a b c d with
    | some spelled => rfl
    | none => rfl
  all_goals simp_all [decode]

theorem decode_comesTo (h : ComesTo cs rest) : ∃ out, decode cs = out ++ decode rest := by
  induction h with
  | refl => exact ⟨[], rfl⟩
  | tail _ hturn ih =>
    obtain ⟨out, hout⟩ := ih
    obtain ⟨_, rfl⟩ := hturn
    exact ⟨out ++ (turn _).1, by rw [hout, decode_turn, List.append_assoc]⟩

/-- The digits of a code point are no backslashes. -/
theorem unicode?_plain {p q r s spelled : Char} (h : unicode? p q r s = some spelled) :
    p ≠ '\\' ∧ q ≠ '\\' ∧ r ≠ '\\' ∧ s ≠ '\\' := by
  have hslash : hexDigit? '\\' = none := by decide
  simp only [unicode?, bind, Option.bind_eq_some_iff] at h
  obtain ⟨i, hp, j, hq, k, hr, l, hs, _⟩ := h
  refine ⟨?_, ?_, ?_, ?_⟩
  all_goals
    rintro rfl
    simp_all

namespace Guarded

theorem behind_escape (h : Guarded ('\\' :: c :: cs)) : Guarded cs := by
  cases h with
  | plain hslash => exact absurd rfl hslash
  | escaped hrest => exact hrest

theorem behind_plain (h : Guarded (c :: cs)) (hc : c ≠ '\\') : Guarded cs := by
  cases h with
  | plain _ _ hrest => exact hrest
  | escaped => exact absurd rfl hc

theorem ne_slash (h : Guarded cs) : cs ≠ ['\\'] := by
  rintro rfl
  cases h with
  | plain hslash => exact hslash rfl

/-- A turn takes an escape off as a whole, and the digits behind it hold no other one. -/
theorem turn (h : Guarded cs) : Guarded (turn cs).2 := by
  unfold Escape.turn
  split
  case h_4 p q r s cs =>
    have hrest := h.behind_escape
    cases hspelled : unicode? p q r s with
    | none => exact hrest
    | some spelled =>
      obtain ⟨hp, hq, hr, hs⟩ := unicode?_plain hspelled
      exact (((hrest.behind_plain hp).behind_plain hq).behind_plain hr).behind_plain hs
  case h_7 c cs _ _ _ _ _ hother =>
    by_cases hc : c = '\\'
    · subst hc
      cases h with
      | plain hslash => exact absurd rfl hslash
      | escaped => exact absurd rfl (hother _ _ rfl)
    · exact h.behind_plain hc
  case h_8 => exact .nil
  all_goals exact h.behind_escape

theorem comesTo (h : Guarded cs) (hrest : ComesTo cs rest) : Guarded rest := by
  induction hrest with
  | refl => exact h
  | tail _ hturn ih => exact hturn.2 ▸ ih.turn

end Guarded

end SolidScript.Escape
