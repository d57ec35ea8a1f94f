import Mathlib.Algebra.Order.Field.Power
import Mathlib.Data.Int.Log
import Mathlib.Data.Rat.Floor
import Mathlib.Tactic.FieldSimp
import Mathlib.Tactic.Linarith
import Mathlib.Tactic.Positivity
import Mathlib.Tactic.Ring
import SolidScript.Number.Text
import SolidScript.Proofs.Number.Digits

namespace SolidScript.Number

/-- The whole number nearest to `v` is `k`; of two that are equally near it is the even one. -/
def Nearest (v : ℚ) (k : ℤ) : Prop := |v - k| ≤ 1 / 2 ∧ (|v - k| = 1 / 2 → Even k)

/-- Rounding `v` to six significant decimal digits gives `w`. -/
def SixDigits (v w : ℚ) : Prop :=
  ∃ k : ℤ, Nearest (v / 10 ^ (Int.log 10 |v| - 5)) k ∧ w = k * 10 ^ (Int.log 10 |v| - 5)

section Nearest

variable {v : ℚ} {j k : ℤ}

theorem Nearest.bounds (h : Nearest v k) : v - 1 / 2 ≤ k ∧ (k : ℚ) ≤ v + 1 / 2 := by
  obtain ⟨hlow, hhigh⟩ := abs_le.mp h.1
  constructor <;> linarith

theorem Nearest.le_of_le (h : Nearest v k) (hj : (j : ℚ) ≤ v) : j ≤ k := by
  have hlt : ((j - 1 : ℤ) : ℚ) < k := by
    push_cast
    linarith [h.bounds.1]
  have := Int.cast_lt.mp hlt
  omega

theorem Nearest.neg (h : Nearest v k) : Nearest (-v) (-k) := by
  have hsame : |-v - ((-k : ℤ) : ℚ)| = |v - k| := by
    rw [Int.cast_neg, ← abs_neg]
    congr 1
    ring
  exact ⟨hsame ▸ h.1, fun htie => (h.2 (hsame ▸ htie)).neg⟩

theorem Nearest.ge_of_ge (h : Nearest v k) (hj : v ≤ j) : k ≤ j := by
  have hneg := h.neg.le_of_le (j := -j) (by push_cast; linarith)
  omega

/-- Between two whole numbers there is one tie, and only one of its sides is even. -/
theorem Nearest.le (hj : Nearest v j) (hk : Nearest v k) : j ≤ k := by
  by_contra hgt
  have hapart : ((k + 1 : ℤ) : ℚ) ≤ j := Int.cast_le.mpr (by omega)
  push_cast at hapart
  have hsum := hj.bounds.2
  have hdiff := hk.bounds.1
  have hvalue : v = k + 1 / 2 := by linarith
  have hnext : (j : ℚ) = k + 1 := by linarith
  obtain ⟨a, ha⟩ := hk.2 (by rw [hvalue]; norm_num)
  obtain ⟨b, hb⟩ := hj.2 (by rw [hvalue, hnext]; norm_num)
  have : j = k + 1 := by exact_mod_cast hnext
  omega

theorem Nearest.unique (hj : Nearest v j) (hk : Nearest v k) : j = k :=
  Int.le_antisymm (hj.le hk) (hk.le hj)

theorem SixDigits.unique {a b : ℚ} (ha : SixDigits v a) (hb : SixDigits v b) : a = b := by
  obtain ⟨j, hj, rfl⟩ := ha
  obtain ⟨k, hk, rfl⟩ := hb
  rw [hj.unique hk]

theorem SixDigits.neg {w : ℚ} (h : SixDigits v w) : SixDigits (-v) (-w) := by
  obtain ⟨k, hk, rfl⟩ := h
  refine ⟨-k, ?_, ?_⟩
  · rw [abs_neg, neg_div]
    exact hk.neg
  · rw [abs_neg, Int.cast_neg, neg_mul]

theorem roundDiv_nearest (num : Nat) {den : Nat} (hden : 0 < den) :
    Nearest ((num : ℚ) / den) (roundDiv num den) := by
  have hpos : (0 : ℚ) < den := Nat.cast_pos.mpr hden
  have hvalue : (num : ℚ) / den = (num / den : Nat) + (num % den : Nat) / den := by
    rw [div_eq_iff hpos.ne', add_mul, div_mul_cancel₀ _ hpos.ne']
    exact_mod_cast (Nat.div_add_mod' num den).symm
  have hrest : ((num % den : Nat) : ℚ) / den < 1 := by
    rw [div_lt_one hpos]
    exact_mod_cast Nat.mod_lt num hden
  have hzero : 0 ≤ ((num % den : Nat) : ℚ) / den := by positivity
  have htie : ((num % den : Nat) : ℚ) / den = 1 / 2 ↔ 2 * (num % den) = den := by
    rw [div_eq_div_iff hpos.ne' two_ne_zero, one_mul, mul_comm]
    exact_mod_cast Iff.rfl
  have hless : ((num % den : Nat) : ℚ) / den < 1 / 2 ↔ 2 * (num % den) < den := by
    rw [div_lt_div_iff₀ hpos two_pos, one_mul, mul_comm]
    exact_mod_cast Iff.rfl
  simp only [roundDiv]
  generalize ((num % den : Nat) : ℚ) / den = rest at hvalue hrest hzero htie hless
  rw [hvalue]
  split
  case isTrue hdown =>
    have hdiff : |((num / den : Nat) : ℚ) + rest - ((num / den : Nat) : ℤ)| = rest := by
      rw [Int.cast_natCast, add_sub_cancel_left, abs_of_nonneg hzero]
    refine ⟨?_, fun heq => ?_⟩
    · obtain hlt | ⟨heq, _⟩ := hdown
      · rw [hdiff]
        exact (hless.mpr hlt).le
      · rw [hdiff]
        exact (htie.mpr heq).le
    · rw [hdiff, htie] at heq
      obtain hlt | ⟨_, heven⟩ := hdown
      · omega
      · exact_mod_cast Nat.even_iff.mpr heven
  case isFalse hup =>
    have hdiff : |((num / den : Nat) : ℚ) + rest - ((num / den + 1 : Nat) : ℤ)| = 1 - rest := by
      rw [Int.cast_natCast, Nat.cast_add, Nat.cast_one, add_sub_add_left_eq_sub, abs_sub_comm,
        abs_of_pos (by linarith)]
    have hhalf : 1 / 2 ≤ rest := not_lt.mp fun hlt => hup (.inl (hless.mp hlt))
    refine ⟨by rw [hdiff]; linarith, fun heq => ?_⟩
    have htied : 2 * (num % den) = den := htie.mp (by rw [hdiff] at heq; linarith)
    have hodd : ¬num / den % 2 = 0 := fun heven => hup (.inr ⟨htied, heven⟩)
    exact_mod_cast Nat.even_iff.mpr (show (num / den + 1) % 2 = 0 by omega)

end Nearest

section Exponent

variable {v : ℚ} {x : ℤ}

theorem log_eq (hlow : (10 : ℚ) ^ x ≤ v) (hhigh : v < 10 ^ (x + 1)) : Int.log 10 v = x := by
  have hpos : 0 < v := lt_of_lt_of_le (by positivity) hlow
  have hle : x ≤ Int.log 10 v := (Int.zpow_le_iff_le_log (by decide) hpos).mp (mod_cast hlow)
  have hlt : Int.log 10 v < x + 1 := (Int.lt_zpow_iff_log_lt (by decide) hpos).mp (mod_cast hhigh)
  omega

theorem log_bounds (hv : 0 < v) : (10 : ℚ) ^ Int.log 10 v ≤ v ∧ v < 10 ^ (Int.log 10 v + 1) :=
  ⟨mod_cast Int.zpow_log_le_self (by decide : 1 < 10) hv,
    mod_cast Int.lt_zpow_succ_log_self (by decide : 1 < 10) v⟩

theorem digitCount_bounds {n : Nat} (hn : 0 < n) :
    (10 : ℚ) ^ ((digitCount n : ℤ) - 1) ≤ n ∧ (n : ℚ) < 10 ^ (digitCount n : ℤ) := by
  have hpos : 0 < digitCount n := Nat.length_toDigits_pos
  obtain ⟨k, hk⟩ := Nat.exists_eq_add_one.mpr hpos
  obtain ⟨hlow, hhigh⟩ := (length_toDigits_iff hn).mp hk
  rw [hk, Nat.cast_add_one, add_sub_cancel_right, ← Nat.cast_add_one, zpow_natCast, zpow_natCast]
  exact ⟨by exact_mod_cast hlow, by exact_mod_cast hhigh⟩

theorem decimalExponent_eq {num den : Nat} (hnum : 0 < num) (hden : 0 < den) :
    decimalExponent num den = Int.log 10 ((num : ℚ) / den) := by
  obtain ⟨hnumLow, hnumHigh⟩ := digitCount_bounds hnum
  obtain ⟨hdenLow, hdenHigh⟩ := digitCount_bounds hden
  have hpos : (0 : ℚ) < den := Nat.cast_pos.mpr hden
  have hten : (10 : ℚ) ≠ 0 := by norm_num
  have hscaled : (10 : ℚ) ^ ((digitCount num : ℤ) - digitCount den) ≤ (num : ℚ) / den ↔
      den * tenTo (digitCount num) ≤ num * tenTo (digitCount den) := by
    rw [zpow_sub₀ hten, div_le_div_iff₀ (by positivity) hpos, mul_comm, zpow_natCast, zpow_natCast]
    exact_mod_cast Iff.rfl
  have hlow : (10 : ℚ) ^ ((digitCount num : ℤ) - digitCount den - 1) ≤ (num : ℚ) / den := by
    rw [sub_right_comm, zpow_sub₀ hten, div_le_div_iff₀ (by positivity) hpos]
    exact mul_le_mul hnumLow hdenHigh.le hpos.le (Nat.cast_nonneg num)
  have hhigh : (num : ℚ) / den < 10 ^ ((digitCount num : ℤ) - digitCount den + 1) := by
    rw [sub_add, zpow_sub₀ hten, div_lt_div_iff₀ hpos (by positivity)]
    calc (num : ℚ) * 10 ^ ((digitCount den : ℤ) - 1)
        ≤ num * den := mul_le_mul_of_nonneg_left hdenLow (Nat.cast_nonneg num)
      _ < 10 ^ (digitCount num : ℤ) * den := mul_lt_mul_of_pos_right hnumHigh hpos
  simp only [decimalExponent]
  split
  case isTrue hge => exact (log_eq (hscaled.mpr hge) hhigh).symm
  case isFalse hlt =>
    refine (log_eq hlow ?_).symm
    rw [sub_add_cancel]
    exact not_le.mp (mt hscaled.mp hlt)

end Exponent

/-- What the digits stand for. The first of them is at the place of `10 ^ exponent`. -/
def Rounded.value (r : Rounded) : ℚ := r.digits * 10 ^ (r.exponent - 5)

/-- There are six digits, of which the first one is not zero. -/
def Rounded.Full (r : Rounded) : Prop := 10 ^ 5 ≤ r.digits ∧ r.digits < 10 ^ 6

section Round

variable {num den : Nat}

theorem Rounded.Full.value_pos {r : Rounded} (h : r.Full) : 0 < r.value := by
  have hpos : (0 : ℚ) < r.digits := Nat.cast_pos.mpr (Nat.lt_of_lt_of_le (by decide) h.1)
  exact mul_pos hpos (by positivity)

theorem Rounded.Full.log_value {r : Rounded} (h : r.Full) : Int.log 10 r.value = r.exponent := by
  have hten : (10 : ℚ) ≠ 0 := by norm_num
  have hlow : ((10 ^ 5 : Nat) : ℚ) ≤ r.digits := Nat.cast_le.mpr h.1
  have hhigh : (r.digits : ℚ) < (10 ^ 6 : Nat) := Nat.cast_lt.mpr h.2
  have hplace : (0 : ℚ) < 10 ^ (r.exponent - 5) := by positivity
  apply log_eq
  · rw [show r.exponent = 5 + (r.exponent - 5) by ring, zpow_add₀ hten]
    exact mul_le_mul_of_nonneg_right (by exact_mod_cast hlow) (by positivity)
  · rw [show r.exponent + 1 = 6 + (r.exponent - 5) by ring, zpow_add₀ hten]
    exact mul_lt_mul_of_pos_right (by exact_mod_cast hhigh) hplace

/-- A value is moved by a power of ten and rounded. -/
theorem shifted_nearest (num : Nat) (hden : 0 < den) (shift : ℤ) :
    Nearest ((num : ℚ) / den * 10 ^ shift)
      ((if 0 ≤ shift then roundDiv (num * tenTo shift.toNat) den
        else roundDiv num (den * tenTo (-shift).toNat) : Nat) : ℤ) := by
  split
  case isTrue hup =>
    obtain ⟨n, rfl⟩ := Int.eq_ofNat_of_zero_le hup
    have hnearest := roundDiv_nearest (num * tenTo n) hden
    have hcast : ((num * tenTo n : Nat) : ℚ) = num * 10 ^ n := by
      rw [Nat.cast_mul]
      exact congrArg ((num : ℚ) * ·) (Nat.cast_pow 10 n)
    rw [hcast] at hnearest
    rwa [Int.toNat_natCast, zpow_natCast, div_mul_eq_mul_div]
  case isFalse hdown =>
    obtain ⟨n, hn⟩ := Int.eq_ofNat_of_zero_le (show 0 ≤ -shift by omega)
    obtain rfl : shift = -n := by omega
    have hplace : 0 < 10 ^ n := Nat.pow_pos (by decide)
    have hnearest := roundDiv_nearest num (Nat.mul_pos hden hplace)
    have hcast : ((den * 10 ^ n : Nat) : ℚ) = den * 10 ^ n := by push_cast; rfl
    rw [hcast] at hnearest
    rw [neg_neg, Int.toNat_natCast, zpow_neg, zpow_natCast, ← div_eq_mul_inv, div_div]
    exact hnearest

/-- With the first digit moved to its place, rounding gives six digits or carries into a seventh. -/
theorem Nearest.six {v : ℚ} {x : ℤ} {k : Nat} (hlow : (10 : ℚ) ^ x ≤ v) (hhigh : v < 10 ^ (x + 1))
    (h : Nearest (v * 10 ^ (5 - x)) k) : 10 ^ 5 ≤ k ∧ k ≤ 10 ^ 6 := by
  have hten : (10 : ℚ) ≠ 0 := by norm_num
  have hplace : (0 : ℚ) < 10 ^ (5 - x) := by positivity
  have hleast : ((10 ^ 5 : ℤ) : ℚ) ≤ v * 10 ^ (5 - x) := by
    calc ((10 ^ 5 : ℤ) : ℚ) = 10 ^ x * 10 ^ (5 - x) := by
          rw [← zpow_add₀ hten, add_sub_cancel]
          norm_num
      _ ≤ v * 10 ^ (5 - x) := mul_le_mul_of_nonneg_right hlow hplace.le
  have hmost : v * 10 ^ (5 - x) ≤ ((10 ^ 6 : ℤ) : ℚ) := by
    calc v * 10 ^ (5 - x) ≤ 10 ^ (x + 1) * 10 ^ (5 - x) :=
          mul_le_mul_of_nonneg_right hhigh.le hplace.le
      _ = ((10 ^ 6 : ℤ) : ℚ) := by
          rw [← zpow_add₀ hten, show x + 1 + (5 - x) = 6 by ring]
          norm_num
  exact ⟨by exact_mod_cast h.le_of_le hleast, by exact_mod_cast h.ge_of_ge hmost⟩

/-- A value that is rounded up to a power of ten is so close to it that one digit less gives the
same power. -/
theorem Nearest.carry {w : ℚ} (h : Nearest w (10 ^ 6 : ℤ)) : Nearest (w / 10) (10 ^ 5 : ℤ) := by
  have hdiff : |w / 10 - ((10 ^ 5 : ℤ) : ℚ)| = |w - ((10 ^ 6 : ℤ) : ℚ)| / 10 := by
    have hscaled : w / 10 - ((10 ^ 5 : ℤ) : ℚ) = (w - ((10 ^ 6 : ℤ) : ℚ)) / 10 := by
      push_cast
      ring
    rw [hscaled, abs_div, abs_of_pos (show (0 : ℚ) < 10 by norm_num)]
  have hless : |w / 10 - ((10 ^ 5 : ℤ) : ℚ)| < 1 / 2 := by
    rw [hdiff]
    linarith [h.1]
  exact ⟨hless.le, fun htie => absurd htie hless.ne⟩

/-- Rounding gives six digits, and rounding the exact value again, now at the place that the result
calls for, gives the same digits. That place is another one where the rounding carries into a new
power of ten. -/
theorem round_spec (hnum : 0 < num) (hden : 0 < den) :
    (round num den).Full ∧ SixDigits ((num : ℚ) / den) (round num den).value ∧
      Nearest ((num : ℚ) / den * 10 ^ (5 - (round num den).exponent)) (round num den).digits := by
  have hten : (10 : ℚ) ≠ 0 := by norm_num
  have hpos : (0 : ℚ) < (num : ℚ) / den := by positivity
  have hnearest := shifted_nearest num hden (5 - decimalExponent num den)
  obtain ⟨hlow, hhigh⟩ := log_bounds hpos
  rw [← decimalExponent_eq hnum hden] at hlow hhigh
  have hlog : decimalExponent num den = Int.log 10 |(num : ℚ) / den| := by
    rw [abs_of_pos hpos, decimalExponent_eq hnum hden]
  have hsix : (significantDigits : ℤ) - 1 - decimalExponent num den =
    5 - decimalExponent num den := rfl
  simp only [round, hsix, SixDigits, ← hlog]
  generalize (num : ℚ) / den = v at *
  generalize decimalExponent num den = x at *
  generalize (if 0 ≤ 5 - x then roundDiv (num * tenTo (5 - x).toNat) den
    else roundDiv num (den * tenTo (-(5 - x)).toNat)) = k at hnearest ⊢
  obtain ⟨hleast, hmost⟩ := hnearest.six hlow hhigh
  have hplace : v / 10 ^ (x - 5) = v * 10 ^ (5 - x) := by
    rw [div_eq_mul_inv, ← zpow_neg, neg_sub]
  rw [hplace]
  split
  case isTrue hcarry =>
    obtain rfl : k = 10 ^ 6 := hcarry
    refine ⟨⟨Nat.le_refl _, show 10 ^ 5 < 10 ^ 6 by decide⟩, ⟨_, hnearest, ?_⟩, ?_⟩
    · rw [Rounded.value, show x + 1 - 5 = 1 + (x - 5) by ring, zpow_add₀ hten, ← mul_assoc]
      norm_num [tenTo, significantDigits]
    · have hagain := Nearest.carry (by exact_mod_cast hnearest)
      rw [show 5 - (x + 1) = (5 - x) - 1 by ring, zpow_sub₀ hten, zpow_one, ← mul_div_assoc]
      exact_mod_cast hagain
  case isFalse hnone =>
    exact ⟨⟨hleast, Nat.lt_of_le_of_ne hmost hnone⟩, ⟨k, hnearest, rfl⟩, hnearest⟩

/-- Only the value of a fraction counts. -/
theorem round_congr {num' den' : Nat} (hnum : 0 < num) (hden : 0 < den) (hnum' : 0 < num')
    (hden' : 0 < den') (h : (num : ℚ) / den = num' / den') : round num den = round num' den' := by
  obtain ⟨hfull, hsix, hdigits⟩ := round_spec hnum hden
  obtain ⟨hfull', hsix', hdigits'⟩ := round_spec hnum' hden'
  rw [← h] at hsix' hdigits'
  have hexponent : (round num den).exponent = (round num' den').exponent := by
    rw [← hfull.log_value, ← hfull'.log_value, hsix.unique hsix']
  rw [← hexponent] at hdigits'
  have hsame : (round num den).digits = (round num' den').digits :=
    Int.ofNat.inj (hdigits.unique hdigits')
  calc round num den = ⟨(round num den).digits, (round num den).exponent⟩ := rfl
    _ = round num' den' := by rw [hsame, hexponent]

end Round

end SolidScript.Number
