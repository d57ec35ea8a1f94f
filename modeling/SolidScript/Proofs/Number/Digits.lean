import Mathlib.Algebra.Group.Nat.Defs
import SolidScript.Number.Decimal

namespace SolidScript.Number

/-- Decimal digits. -/
def Digits (cs : List Char) : Prop := ∀ c ∈ cs, c.isDigit

section Length

variable {n : Nat}

/-- Between two powers of ten the numbers have the same count of digits. -/
theorem length_toDigits_iff {k : Nat} (hn : 0 < n) :
    (Nat.toDigits 10 n).length = k + 1 ↔ 10 ^ k ≤ n ∧ n < 10 ^ (k + 1) := by
  have hmost := Nat.length_toDigits_le_iff (b := 10) (n := n) (by decide) (Nat.succ_pos k)
  obtain rfl | hk := Nat.eq_zero_or_pos k
  · have hpos : 0 < (Nat.toDigits 10 n).length := Nat.length_toDigits_pos
    omega
  · have hfewer := Nat.length_toDigits_le_iff (b := 10) (n := n) (by decide) hk
    omega

theorem length_toDigits_le {m n : Nat} (h : m ≤ n) :
    (Nat.toDigits 10 m).length ≤ (Nat.toDigits 10 n).length := by
  have hpos : 0 < (Nat.toDigits 10 n).length := Nat.length_toDigits_pos
  have hlt := (Nat.length_toDigits_le_iff (by decide) hpos).mp (Nat.le_refl _)
  exact (Nat.length_toDigits_le_iff (by decide) hpos).mpr (Nat.lt_of_le_of_lt h hlt)

/-- Counting on by one takes a digit more exactly at the powers of ten. -/
theorem length_toDigits_succ (hn : 0 < n) :
    (Nat.toDigits 10 (n + 1)).length = (Nat.toDigits 10 n).length + 1 ∧ (∃ k, n + 1 = 10 ^ k) ∨
      (Nat.toDigits 10 (n + 1)).length = (Nat.toDigits 10 n).length ∧ ¬∃ k, n + 1 = 10 ^ k := by
  have hpos : 0 < (Nat.toDigits 10 n).length := Nat.length_toDigits_pos
  obtain ⟨k, hk⟩ := Nat.exists_eq_add_one.mpr hpos
  obtain ⟨hlow, hhigh⟩ := (length_toDigits_iff hn).mp hk
  have hsucc {j : Nat} := length_toDigits_iff (k := j) (Nat.succ_pos n)
  rw [hk]
  obtain hnext | hnext := Nat.lt_or_eq_of_le (Nat.succ_le_of_lt hhigh)
  · refine .inr ⟨hsucc.mpr ⟨Nat.le_succ_of_le hlow, hnext⟩, ?_⟩
    -- No power of ten lies strictly between two powers of ten that follow each other.
    rintro ⟨j, hj⟩
    have habove : k < j := (Nat.pow_lt_pow_iff_right (a := 10) (by decide)).mp (by omega)
    have hbelow : j < k + 1 := (Nat.pow_lt_pow_iff_right (a := 10) (by decide)).mp (by omega)
    omega
  · refine .inl ⟨hsucc.mpr ⟨Nat.le_of_eq hnext.symm, ?_⟩, k + 1, hnext⟩
    rw [hnext]
    exact Nat.pow_lt_pow_right (by decide) (Nat.lt_succ_self _)

end Length

section Spelling

theorem Digits.append {as bs : List Char} (has : Digits as) (hbs : Digits bs) :
    Digits (as ++ bs) := List.forall_mem_append.mpr ⟨has, hbs⟩

theorem Digits.of_sublist {as bs : List Char} (hbs : Digits bs) (h : as.Sublist bs) : Digits as :=
  fun c hc => hbs c (h.subset hc)

theorem digits_toDigits (n : Nat) : Digits (Nat.toDigits 10 n) :=
  fun _ hc => Nat.isDigit_of_mem_toDigits (by decide) (by decide) hc

theorem digits_zeros (n : Nat) : Digits (List.replicate n '0') := by
  intro c hc
  obtain rfl := List.eq_of_mem_replicate hc
  rfl

theorem Digits.point_not_mem {cs : List Char} (h : Digits cs) : '.' ∉ cs := by
  intro hmem
  cases h '.' hmem

theorem ofDigits_append (as bs : List Char) :
    ofDigits (as ++ bs) = 10 ^ bs.length * ofDigits as + ofDigits bs := by
  change Nat.ofDigitChars 10 (as ++ bs) 0 = _
  rw [Nat.ofDigitChars_append, Nat.ofDigitChars_eq_ofDigitChars_zero]
  rfl

theorem ofDigits_toDigits (n : Nat) : ofDigits (Nat.toDigits 10 n) = n :=
  Nat.ofDigitChars_toDigits (by decide) (by decide)

theorem ofDigits_zeros (n : Nat) : ofDigits (List.replicate n '0') = 0 := by
  induction n with
  | zero => rfl
  | succ n ih => rw [List.replicate_succ', ofDigits_append, ih]; rfl

end Spelling

end SolidScript.Number
