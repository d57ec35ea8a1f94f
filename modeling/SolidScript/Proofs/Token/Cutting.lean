import SolidScript.Proofs.Token.Scan
import SolidScript.Token.Lexer

namespace SolidScript.Lexical

/-- The rules cut the lexemes off the front of a text one after the other and leave `rest`. -/
inductive Cuts : List Char → List Lexeme → List Char → Prop
  | done (rest : List Char) : Cuts rest [] rest
  | lexeme {cs rest : List Char} {kind : TokenKind} {n : Nat} {ls : List Lexeme}
    (first : Scans cs kind n) (others : Cuts (cs.drop n) ls rest) :
    Cuts cs (⟨kind, String.ofList (cs.take n)⟩ :: ls) rest

/-- Cutting ends at the end of the text, or with a fault where no rule applies. -/
inductive Halts : List Char → Option Fault → Prop
  | ended : Halts [] none
  | faulty {c : Char} {cs : List Char} (h : scan (c :: cs) = none) :
    Halts (c :: cs) (some (faultAt c cs))

variable {cs rest : List Char} {ls : List Lexeme}

theorem cut_of_scan {c : Char} {kind : TokenKind} {n fuel : Nat}
    (h : scan (c :: cs) = some (kind, n)) :
    cut (fuel + 1) (c :: cs) =
      (⟨kind, String.ofList ((c :: cs).take n)⟩ :: (cut fuel ((c :: cs).drop n)).1,
        (cut fuel ((c :: cs).drop n)).2) := by
  rw [cut, h]

theorem cut_of_fault {c : Char} {fuel : Nat} (h : scan (c :: cs) = none) :
    cut (fuel + 1) (c :: cs) = ([], some (faultAt c cs)) := by
  rw [cut, h]

/-- The bound on the number of lexemes is never reached. -/
theorem cut_cuts {fuel : Nat} (hfuel : cs.length ≤ fuel) :
    ∃ rest, Cuts cs (cut fuel cs).1 rest ∧ Halts rest (cut fuel cs).2 := by
  induction fuel generalizing cs with
  | zero =>
    obtain rfl := List.length_eq_zero_iff.mp (Nat.le_zero.mp hfuel)
    exact ⟨[], .done [], .ended⟩
  | succ fuel ih =>
    cases cs with
    | nil => exact ⟨[], .done [], .ended⟩
    | cons c cs =>
      cases hscan : scan (c :: cs) with
      | none =>
        rw [cut_of_fault hscan]
        exact ⟨c :: cs, .done _, .faulty hscan⟩
      | some found =>
        obtain ⟨kind, n⟩ := found
        have hfirst := scan_eq_some_iff.mp hscan
        have hpos := scans_pos hfirst
        have hshort : ((c :: cs).drop n).length ≤ fuel := by
          rw [List.length_drop]
          omega
        obtain ⟨rest, hcuts, hhalts⟩ := ih hshort
        rw [cut_of_scan hscan]
        exact ⟨rest, .lexeme hfirst hcuts, hhalts⟩

theorem cut_eq {fuel : Nat} {fault : Option Fault} (hfuel : cs.length ≤ fuel)
    (hcuts : Cuts cs ls rest) (hhalts : Halts rest fault) : cut fuel cs = (ls, fault) := by
  induction hcuts generalizing fuel with
  | done rest =>
    cases hhalts with
    | ended => cases fuel <;> rfl
    | faulty hscan =>
      obtain ⟨fuel, rfl⟩ : ∃ k, fuel = k + 1 := ⟨fuel - 1, by simp at hfuel; omega⟩
      exact cut_of_fault hscan
  | @lexeme cs rest kind n ls hfirst _ ih =>
    have hpos := scans_pos hfirst
    have hle := scans_le hfirst
    obtain ⟨c, cs, rfl⟩ := List.exists_cons_of_length_pos (Nat.lt_of_lt_of_le hpos hle)
    obtain ⟨fuel, rfl⟩ : ∃ k, fuel = k + 1 := ⟨fuel - 1, by simp at hfuel; omega⟩
    have hshort : ((c :: cs).drop n).length ≤ fuel := by
      rw [List.length_drop]
      omega
    rw [cut_of_scan (scan_eq_some_iff.mpr hfirst), ih hshort hhalts]

/-- No character is lost. -/
theorem Cuts.text (h : Cuts cs ls rest) : ls.flatMap (·.text.toList) ++ rest = cs := by
  induction h with
  | done rest => rfl
  | @lexeme cs rest kind n ls _ _ ih =>
    rw [List.flatMap_cons, List.append_assoc, ih, String.toList_ofList, List.take_append_drop]

theorem Cuts.text_ne_empty (h : Cuts cs ls rest) : ∀ l ∈ ls, l.text ≠ "" := by
  induction h with
  | done rest => nofun
  | @lexeme cs rest kind n ls hfirst _ ih =>
    intro l hl
    obtain rfl | hl := List.mem_cons.mp hl
    · have hpos := scans_pos hfirst
      have hle := scans_le hfirst
      intro hempty
      have hnil := String.ofList_eq_empty_iff.mp hempty
      have hlen := congrArg List.length hnil
      rw [List.length_take, List.length_nil] at hlen
      omega
    · exact ih l hl

theorem place_toLexeme (p : Position) (ls : List Lexeme) :
    (place p ls).1.map Token.toLexeme = ls := by
  induction ls generalizing p with
  | nil => rfl
  | cons l ls ih => simp [place, ih]

end SolidScript.Lexical

namespace SolidScript

open Lexical

theorem tokenize_of_cuts {source : String} {ls : List Lexeme} {rest : List Char}
    {fault : Option Fault} (hcuts : Cuts source.toList ls rest) (hhalts : Halts rest fault) :
    tokenize source =
      match fault with
      | none => .ok (place Position.start ls).1
      | some fault => .error ⟨fault, (place Position.start ls).2⟩ := by
  simp only [tokenize, cut_eq (Nat.le_refl _) hcuts hhalts]
  cases fault <;> rfl

theorem tokenize_eq_ok_iff {source : String} {tokens : List Token} :
    tokenize source = .ok tokens ↔
      ∃ ls, Cuts source.toList ls [] ∧ tokens = (place Position.start ls).1 := by
  constructor
  · intro h
    obtain ⟨rest, hcuts, hhalts⟩ := cut_cuts (Nat.le_refl source.toList.length)
    rw [tokenize_of_cuts hcuts hhalts] at h
    generalize (cut source.toList.length source.toList).2 = fault at hhalts h
    cases hhalts with
    | ended => exact ⟨_, hcuts, (Except.ok.inj h).symm⟩
    | faulty hscan => cases h
  · rintro ⟨ls, hcuts, rfl⟩
    exact tokenize_of_cuts hcuts .ended

/-- Where no rule applies, the fault is reported at the place behind the lexemes so far. -/
theorem tokenize_eq_error {source : String} {e : LexError} (h : tokenize source = .error e) :
    ∃ ls c cs, Cuts source.toList ls (c :: cs) ∧ scan (c :: cs) = none ∧
      e = ⟨faultAt c cs, (place Position.start ls).2⟩ := by
  obtain ⟨rest, hcuts, hhalts⟩ := cut_cuts (Nat.le_refl source.toList.length)
  rw [tokenize_of_cuts hcuts hhalts] at h
  generalize (cut source.toList.length source.toList).2 = fault at hhalts h
  cases hhalts with
  | ended => cases h
  | faulty hscan => exact ⟨_, _, _, hcuts, hscan, (Except.error.inj h).symm⟩

end SolidScript
