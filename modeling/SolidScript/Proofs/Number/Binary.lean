import Mathlib.Algebra.Order.Field.Rat
import SolidScript.Number.Binary

namespace SolidScript.Number

open Float.Model Float.Model.UnpackedFloat

/-- Whether a sign is a minus. -/
def minus : Sign → Bool
  | .negative => true
  | .positive => false

/-- What the fields of a number stand for. -/
def Binary.ofFields : UnpackedFloat → Binary
  | .notANumber => .nan
  | .infinity s => .infinite (minus s)
  | .zero s => .finite (minus s) 0 (-1074)
  | .finite s m e _ => .finite (minus s) m e

@[simp] theorem Binary.ofFields_notANumber : ofFields .notANumber = .nan := rfl

@[simp] theorem Binary.ofFields_infinity (s : Sign) :
    ofFields (.infinity s) = .infinite (minus s) := rfl

@[simp] theorem Binary.ofFields_zero (s : Sign) :
    ofFields (.zero s) = .finite (minus s) 0 (-1074) := rfl

@[simp] theorem Binary.ofFields_finite (s : Sign) (m : Nat) (e : ℤ) (h : 0 < m) :
    ofFields (.finite s m e h) = .finite (minus s) m e := rfl

section Fields

variable (b : BitVec Format.binary64.numBits)

theorem toNat_unpackMantissa : (unpackMantissa b).toNat = b.toNat % 2 ^ 52 := by
  rw [unpackMantissa, BitVec.toNat_cast, BitVec.extractLsb_toNat, Nat.shiftRight_zero]
  rfl

theorem toNat_implicit : (1#1 ++ unpackMantissa b).toNat = 2 ^ 52 + b.toNat % 2 ^ 52 := by
  rw [BitVec.toNat_append, ← Nat.shiftLeft_add_eq_or_of_lt (unpackMantissa b).isLt,
    toNat_unpackMantissa]
  rfl

theorem toNat_unpackExponent : (unpackExponent b).toNat = b.toNat / 2 ^ 52 % 2 ^ 11 := by
  rw [unpackExponent, BitVec.toNat_cast, BitVec.extractLsb_toNat, Nat.shiftRight_eq_div_pow]
  rfl

theorem minus_unpackSign : minus (Sign.ofBitVec (unpackSign b)) = decide (2 ^ 63 ≤ b.toNat) := by
  have hsize : b.toNat < 2 ^ 64 := b.isLt
  have hsign : (unpackSign b).toNat = b.toNat / 2 ^ 63 % 2 ^ 1 := by
    rw [← Nat.shiftRight_eq_div_pow]
    exact BitVec.extractLsb_toNat 63 63 b
  have hzero : unpackSign b = 0#1 ↔ b.toNat < 2 ^ 63 := by
    rw [← BitVec.toNat_inj, hsign, BitVec.toNat_ofNat]
    omega
  rw [Sign.ofBitVec]
  split
  case isTrue hpositive => exact (decide_eq_false (Nat.not_le_of_lt (hzero.mp hpositive))).symm
  case isFalse hnegative => exact (decide_eq_true (not_lt.mp (mt hzero.mpr hnegative))).symm

/-- The fields as whole numbers. -/
theorem ofFields_unpack : Binary.ofFields (UnpackedFloat.unpack .binary64 b) =
    if b.toNat / 2 ^ 52 % 2 ^ 11 = 2047 then
      if b.toNat % 2 ^ 52 = 0 then .infinite (decide (2 ^ 63 ≤ b.toNat)) else .nan
    else if b.toNat / 2 ^ 52 % 2 ^ 11 = 0 then
      .finite (decide (2 ^ 63 ≤ b.toNat)) (b.toNat % 2 ^ 52) (-1074)
    else .finite (decide (2 ^ 63 ≤ b.toNat)) (2 ^ 52 + b.toNat % 2 ^ 52)
      ((b.toNat / 2 ^ 52 % 2 ^ 11 : Nat) - 1075) := by
  have hall : unpackExponent b = -1#_ ↔ b.toNat / 2 ^ 52 % 2 ^ 11 = 2047 := by
    rw [← toNat_unpackExponent, ← BitVec.toNat_inj]
    rfl
  have hnone : unpackExponent b = 0#_ ↔ b.toNat / 2 ^ 52 % 2 ^ 11 = 0 := by
    rw [← toNat_unpackExponent, ← BitVec.toNat_inj]
    rfl
  have hzero : unpackMantissa b = 0#_ ↔ b.toNat % 2 ^ 52 = 0 := by
    rw [← toNat_unpackMantissa, ← BitVec.toNat_inj]
    rfl
  have hbias : ((Format.exponentBias .binary64 : ℤ) + (52 : Nat)) = 1075 := rfl
  delta UnpackedFloat.unpack
  dsimp only
  by_cases hfull : unpackExponent b = -1#_
  · rw [if_pos hfull, if_pos (hall.mp hfull)]
    by_cases hfraction : unpackMantissa b = 0#_
    · rw [if_pos hfraction, if_pos (hzero.mp hfraction), Binary.ofFields_infinity, minus_unpackSign]
    · rw [if_neg hfraction, if_neg (mt hzero.mpr hfraction), Binary.ofFields_notANumber]
  rw [if_neg hfull, if_neg (mt hall.mpr hfull)]
  by_cases hexp : unpackExponent b = 0#_
  · rw [if_pos hexp, if_pos (hnone.mp hexp)]
    by_cases hfraction : unpackMantissa b = 0#_
    · rw [dif_pos hfraction, Binary.ofFields_zero, minus_unpackSign, hzero.mp hfraction]
    · rw [dif_neg hfraction, Binary.ofFields_finite, minus_unpackSign,
        toNat_unpackMantissa, toNat_unpackExponent, hnone.mp hexp, hbias]
      rfl
  · rw [if_neg hexp, if_neg (mt hnone.mpr hexp), Binary.ofFields_finite,
      minus_unpackSign, toNat_implicit, toNat_unpackExponent, hbias]

end Fields

theorem decode_eq (x : Float) : decode x = Binary.ofFields x.toModel.unpack := by
  have hbits : x.toModel.toBits.toBitVec.toNat = x.toBits.toNat := rfl
  have hnegative : decide (2 ^ 63 ≤ x.toBits.toNat) = isNegative x := rfl
  have hfraction : x.toBits.toNat % 2 ^ 52 = magnitude x % 2 ^ 52 :=
    (Nat.mod_mod_of_dvd _ (Dvd.intro_left (2 ^ 11) rfl)).symm
  have hexponent : x.toBits.toNat / 2 ^ 52 % 2 ^ 11 = magnitude x / 2 ^ 52 :=
    (Nat.mod_mul_right_div_self _ (2 ^ 52) (2 ^ 11)).symm
  have hbound : magnitude x < 2 ^ 63 := Nat.mod_lt _ (by decide)
  have hjoined : 2 ^ 52 * (magnitude x / 2 ^ 52) + magnitude x % 2 ^ 52 = magnitude x :=
    Nat.div_add_mod _ _
  rw [Float.Model.unpack, ofFields_unpack, hbits, hnegative, hfraction, hexponent]
  simp only [decode, infiniteMagnitude, show twoTo 52 = 2 ^ 52 from rfl]
  by_cases hnan : 2047 * 2 ^ 52 < magnitude x
  · rw [if_pos hnan, if_pos (by omega), if_neg (by omega)]
  by_cases hinfinite : magnitude x = 2047 * 2 ^ 52
  · rw [if_neg hnan, if_pos hinfinite, if_pos (by omega), if_pos (by omega)]
  · have hfinite : magnitude x / 2 ^ 52 ≠ 2047 := by omega
    rw [if_neg hnan, if_neg hinfinite, if_neg hfinite]

/-- The exact value of a finite number. -/
def value? (x : Float) : Option ℚ :=
  match x.toModel.unpack with
  | .zero _ => some 0
  | .finite s m e _ => some ((s.apply m : ℤ) * 2 ^ e)
  | _ => none

/-- A finite number is taken apart into its exact value. -/
theorem value?_eq_some_iff {x : Float} {v : ℚ} :
    value? x = some v ↔ ∃ negative m e, decode x = .finite negative m e ∧
      v = (if negative then -1 else 1) * (m * 2 ^ e) := by
  rw [decode_eq]
  unfold value?
  cases x.toModel.unpack with
  | notANumber => simp
  | infinity s => simp
  | zero s => simp [eq_comm]
  | finite s m e _ =>
    change some (((s.apply m : ℤ) : ℚ) * 2 ^ e) = some v ↔
      ∃ negative n k, Binary.finite (minus s) m e = .finite negative n k ∧ _
    cases s <;> simp [Sign.apply, minus, eq_comm]

end SolidScript.Number
