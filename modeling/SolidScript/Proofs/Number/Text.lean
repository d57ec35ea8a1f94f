import SolidScript.Proofs.Number.Binary
import SolidScript.Proofs.Number.Numeral

namespace SolidScript.Number

/-- The form of a numeral with at most six digits that count. The first one of them is at the place
of `10 ^ x`. -/
structure Numeral.Tidy (n : Numeral) (x : ℤ) : Prop where
  whole_ne : n.whole ≠ []
  isDigit : Digits (n.whole ++ n.fraction)
  six : ((n.whole ++ n.fraction).dropWhile (· = '0')).length ≤ 6
  trimmed : n.fraction.getLast? ≠ some '0'
  positional : -4 ≤ x ∧ x < 6 → n.tail = []
  scientific : ¬(-4 ≤ x ∧ x < 6) → n.whole.length = 1 ∧
    ∃ ds, n.tail = 'e' :: (if x < 0 then '-' else '+') :: ds ∧
      2 ≤ ds.length ∧ Digits ds ∧ ofDigits ds = x.natAbs

section Tidy

variable {r : Rounded}

theorem length_dropWhile_le {ds : List Char} {k : Nat} {cs : List Char}
    (h : cs <+: List.replicate k '0' ++ ds) :
    (cs.dropWhile (· = '0')).length ≤ ds.length := by
  induction k generalizing cs with
  | zero => exact (List.dropWhile_sublist _).length_le.trans h.length_le
  | succ k ih =>
    cases cs with
    | nil => exact Nat.zero_le _
    | cons c cs =>
      rw [List.replicate_succ, List.cons_append, List.cons_prefix_cons] at h
      rw [List.dropWhile_cons_of_pos (by simpa using h.1)]
      exact ih h.2

theorem Rounded.Full.layout_tidy (h : r.Full) : r.layout.trim.Tidy r.exponent := by
  have hspells := h.layout_spells
  obtain ⟨k, hk⟩ := hspells.digits
  have hinitial : r.layout.trim.whole ++ r.layout.trim.fraction <+:
      List.replicate k '0' ++ Nat.toDigits 10 r.digits :=
    hk ▸ (List.prefix_append_right_inj _).mpr (trimZeros_initial _)
  refine ⟨hspells.whole_ne, hspells.digits_trim,
    (length_dropWhile_le hinitial).trans h.length_digits.le, getLast?_trimZeros _,
    fun hfixed => ?_, fun hscientific => ?_⟩
  · simp only [layout, if_pos hfixed]
    split <;> rfl
  · simp only [layout, if_neg hscientific]
    refine ⟨?_, _, rfl, length_twoDigits _, digits_twoDigits _, ofDigits_twoDigits _⟩
    change (List.take 1 _).length = 1
    rw [List.length_take, h.length_digits]
    rfl

end Tidy

/-- A whole number with so many of its digits behind a point. -/
def spelled (k decimals : Nat) : List Char :=
  let ds := List.replicate (decimals + 1 - digitCount k) '0' ++ Nat.toDigits 10 k
  pointed (ds.take (ds.length - decimals)) (ds.drop (ds.length - decimals))

/-- Leaves out the zeros at the end of a text with a point, and the point where it comes last. -/
def trimPoint (cs : List Char) : List Char :=
  if '.' ∈ cs then (trimZeros cs).rdropWhile (· = '.') else cs

/-- The text of the positive value `num / den` by two roundings. The first one gives the exponent;
where that calls for positional form, the second one gives the digits. -/
def twiceRounded (num den : Nat) : List Char :=
  let r := round num den
  if -4 ≤ r.exponent ∧ r.exponent < 6 then
    let decimals := (5 - r.exponent).toNat
    trimPoint (spelled (roundDiv (num * tenTo decimals) den) decimals)
  else trimPoint (spelled r.digits 5) ++ scale r.exponent

section Twice

variable {whole fraction : List Char} {r : Rounded} {num den : Nat}

theorem trimPoint_pointed (hwhole : Digits whole) (hfraction : Digits fraction) :
    trimPoint (pointed whole fraction) = pointed whole (trimZeros fraction) := by
  by_cases hnone : fraction = []
  · subst hnone
    rw [pointed, if_pos rfl, List.append_nil, trimPoint, if_neg hwhole.point_not_mem]
    exact (List.append_nil whole).symm
  obtain ⟨n, hn⟩ := exists_trimmed fraction
  have hpoint : '.' ∈ whole ++ '.' :: fraction := by simp
  have htrim : trimZeros (whole ++ '.' :: fraction) =
      trimZeros (whole ++ '.' :: trimZeros fraction) := by
    conv_lhs => rw [hn, ← List.cons_append, ← List.append_assoc, trimZeros_append_zeros]
  rw [pointed, if_neg hnone, trimPoint, if_pos hpoint, htrim]
  obtain hzeros | ⟨ds, c, hlast⟩ := List.eq_nil_or_concat (trimZeros fraction)
  · rw [hzeros, pointed, if_pos rfl, trimZeros_concat (by decide),
      List.rdropWhile_concat_pos _ _ _ (by decide), List.append_nil, List.rdropWhile_eq_self_iff]
    intro hne hdot
    exact hwhole.point_not_mem (of_decide_eq_true hdot ▸ List.getLast_mem hne)
  · rw [List.concat_eq_append] at hlast
    have hzero : c ≠ '0' := by
      intro hc
      apply getLast?_trimZeros fraction
      rw [hlast, List.getLast?_concat, hc]
    have hdigit : c ≠ '.' := by
      rintro rfl
      apply hfraction.point_not_mem
      rw [hn, hlast]
      simp
    rw [hlast, pointed, if_neg (by simp), ← List.cons_append, ← List.append_assoc,
      trimZeros_concat hzero, List.rdropWhile_concat_neg _ _ _ (by simpa using hdigit)]

/-- With the places that positional form calls for, six digits are spelled as in that form. -/
theorem Rounded.Full.spelled_positional (h : r.Full) (hfixed : -4 ≤ r.exponent ∧ r.exponent < 6) :
    spelled r.digits (5 - r.exponent).toNat = pointed r.layout.whole r.layout.fraction := by
  have hlength := h.length_digits
  have hcount : digitCount r.digits = 6 := hlength
  simp only [spelled, layout, if_pos hfixed, hcount, List.length_append, List.length_replicate,
    hlength]
  split
  case isTrue hneg =>
    obtain ⟨k, hk⟩ := Int.eq_ofNat_of_zero_le (show 0 ≤ -r.exponent - 1 by omega)
    rw [show (5 - r.exponent).toNat = k + 6 by omega, hk,
      show k + 6 + 1 - 6 + 6 - (k + 6) = 1 by omega, show k + 6 + 1 - 6 = k + 1 by omega,
      List.replicate_succ]
    rfl
  case isFalse hpos =>
    rw [show (5 - r.exponent).toNat + 1 - 6 = 0 by omega, List.replicate_zero, List.nil_append,
      show 0 + 6 - (5 - r.exponent).toNat = r.exponent.toNat + 1 by omega]

theorem Rounded.Full.spelled_scientific (h : r.Full) (hno : ¬(-4 ≤ r.exponent ∧ r.exponent < 6)) :
    spelled r.digits 5 = pointed r.layout.whole r.layout.fraction := by
  have hlength := h.length_digits
  have hcount : digitCount r.digits = 6 := hlength
  simp only [spelled, layout, if_neg hno, hcount, List.length_append, List.length_replicate,
    hlength]
  rfl

/-- One rounding is enough. -/
theorem twiceRounded_eq (hnum : 0 < num) (hden : 0 < den) :
    twiceRounded num den = (round num den).chars := by
  obtain ⟨hfull, -, hagain⟩ := round_spec hnum hden
  simp only [twiceRounded]
  generalize round num den = r at *
  obtain ⟨hwhole, hfraction⟩ := List.forall_mem_append.mp hfull.layout_spells.isDigit
  rw [r.chars_eq, Numeral.chars, Numeral.trim, ← trimPoint_pointed hwhole hfraction]
  split
  case isTrue hfixed =>
    have hsame : roundDiv (num * tenTo (5 - r.exponent).toNat) den = r.digits := by
      have hfirst := shifted_nearest num hden (5 - r.exponent)
      rw [if_pos (by omega)] at hfirst
      exact_mod_cast hfirst.unique hagain
    have htail : r.layout.tail = [] := hfull.layout_tidy.positional hfixed
    rw [hsame, hfull.spelled_positional hfixed, htail, List.append_nil]
  case isFalse hscientific =>
    rw [hfull.spelled_scientific hscientific]
    simp only [Rounded.layout, if_neg hscientific]

end Twice

/-- The value that a decimal text denotes. -/
def denoted? (text : String) : Option ℚ :=
  let (negative, cs) := takeSign text.toList
  (Decimal.read? cs).map fun d => (if negative then -1 else 1) * d.value

section Denoted

theorem takeSign_of_isDigit {c : Char} (hc : c.isDigit) (cs : List Char) :
    takeSign (c :: cs) = (false, c :: cs) := by
  unfold takeSign
  split
  case h_1 heq => cases heq; cases hc
  case h_2 heq => cases heq; cases hc
  case h_3 => rfl

theorem Rounded.Full.denoted? {r : Rounded} (h : r.Full) (negative : Bool) :
    Number.denoted? (String.ofList ((if negative then ['-'] else []) ++ r.chars)) =
      some ((if negative then -1 else 1) * r.value) := by
  obtain ⟨d, hread, hvalue⟩ := h.layout_spells.read?_trim
  have hsign : takeSign ((if negative then ['-'] else []) ++ r.chars) = (negative, r.chars) := by
    cases negative with
    | true => rfl
    | false =>
      obtain ⟨hwhole, -⟩ := List.forall_mem_append.mp h.layout_tidy.isDigit
      obtain ⟨c, cs, hcs⟩ := List.exists_cons_of_ne_nil h.layout_tidy.whole_ne
      rw [hcs] at hwhole
      rw [r.chars_eq, Numeral.chars, pointed, hcs]
      exact takeSign_of_isDigit (hwhole c List.mem_cons_self) _
  simp only [Number.denoted?, String.toList_ofList, hsign]
  rw [r.chars_eq, hread, Option.map_some, hvalue]

end Denoted

/-- The digits of a positive value are those of a fraction. -/
theorem exists_finiteChars {m : Nat} (hm : 0 < m) (e : ℤ) :
    ∃ num den : Nat, 0 < num ∧ 0 < den ∧ (num : ℚ) / den = m * 2 ^ e ∧
      finiteChars m e = (round num den).chars := by
  unfold finiteChars
  rw [if_neg hm.ne']
  split
  case isTrue hup =>
    obtain ⟨k, rfl⟩ := Int.eq_ofNat_of_zero_le hup
    refine ⟨m * twoTo k, 1, Nat.mul_pos hm (Nat.pow_pos two_pos), one_pos, ?_, rfl⟩
    rw [Nat.cast_one, div_one, Nat.cast_mul, zpow_natCast]
    exact congrArg ((m : ℚ) * ·) (Nat.cast_pow 2 k)
  case isFalse hdown =>
    obtain ⟨k, hk⟩ := Int.eq_ofNat_of_zero_le (show 0 ≤ -e by omega)
    obtain rfl : e = -k := by omega
    refine ⟨m, twoTo k, hm, Nat.pow_pos two_pos, ?_, by rw [neg_neg, Int.toNat_natCast]⟩
    rw [zpow_neg, zpow_natCast, ← div_eq_mul_inv]
    exact congrArg ((m : ℚ) / ·) (Nat.cast_pow 2 k)

theorem text_of_decode {x : Float} {negative : Bool} {m : Nat} {e : ℤ}
    (h : decode x = .finite negative m e) :
    text x = String.ofList ((if negative then ['-'] else []) ++ finiteChars m e) := by
  unfold text
  rw [h]
  cases negative <;> rfl

/-- The text of a finite number other than zero denotes the number rounded to six digits. No digit
is written that does not count, and the place of the first digit of the rounded value decides the
form. Two roundings would give the same text. -/
theorem text_six_digits {x : Float} {v : ℚ} (hx : value? x = some v) (hv : v ≠ 0) :
    ∃ (w : ℚ) (n : Numeral), SixDigits v w ∧ (∀ w', SixDigits v w' → w' = w) ∧
      denoted? (text x) = some w ∧
      (text x).toList = (if v < 0 then ['-'] else []) ++ n.chars ∧
      n.Tidy (Int.log 10 |w|) ∧
      n.chars = twiceRounded v.num.natAbs v.den := by
  obtain ⟨negative, m, e, hdecode, hvalue⟩ := value?_eq_some_iff.mp hx
  have hm : 0 < m := by
    refine Nat.pos_of_ne_zero fun hzero => hv ?_
    rw [hvalue, hzero]
    simp
  have hpos : (0 : ℚ) < m * 2 ^ e := by positivity
  obtain ⟨num, den, hnum, hden, hquotient, hchars⟩ := exists_finiteChars hm e
  obtain ⟨hfull, hsix, -⟩ := round_spec hnum hden
  rw [hquotient] at hsix
  have habs : |v| = m * 2 ^ e := by
    rw [hvalue]
    cases negative <;> simp [abs_of_pos hpos]
  have hnumerator : 0 < v.num.natAbs := Int.natAbs_pos.mpr (Rat.num_ne_zero.mpr hv)
  have hround : round num den = round v.num.natAbs v.den := by
    apply round_congr hnum hden hnumerator v.den_pos
    rw [hquotient, ← habs, Nat.cast_natAbs, Int.cast_abs]
    conv_lhs => rw [← Rat.num_div_den v, abs_div, Nat.abs_cast]
  have htext := text_of_decode hdecode
  rw [hchars] at htext
  have hsign : (if negative then ['-'] else []) = if v < 0 then ['-'] else [] := by
    cases negative with
    | true => rw [if_pos rfl, if_pos (by rw [hvalue]; simpa using hpos)]
    | false => rw [if_neg Bool.false_ne_true, if_neg (by rw [hvalue]; simpa using hpos.le)]
  have hsixv : SixDigits v ((if negative then -1 else 1) * (round num den).value) := by
    cases negative with
    | true => simpa [hvalue] using hsix.neg
    | false => simpa [hvalue] using hsix
  refine ⟨_, (round num den).layout.trim, hsixv, fun w' hw' => hw'.unique hsixv, ?_, ?_, ?_, ?_⟩
  · rw [htext, hfull.denoted?]
  · rw [htext, String.toList_ofList, hsign, Rounded.chars_eq]
  · have hplace :
        |(if negative then -1 else 1) * (round num den).value| = (round num den).value := by
      cases negative <;> simp [abs_of_pos hfull.value_pos]
    rw [hplace, hfull.log_value]
    exact hfull.layout_tidy
  · rw [← Rounded.chars_eq, hround]
    exact (twiceRounded_eq hnumerator v.den_pos).symm

/-- The digits are all nines, and rounding carries into the place where positional form begins. -/
theorem text_six_digits_carry :
    value? (-0.00009999999) = some (-(7378696891614058 * 2 ^ (-66 : ℤ))) ∧
      text (-0.00009999999) = "-0.0001" ∧
      ∃ (w : ℚ) (n : Numeral), SixDigits (-(7378696891614058 * 2 ^ (-66 : ℤ))) w ∧
        denoted? (text (-0.00009999999)) = some w ∧
        (text (-0.00009999999)).toList = '-' :: n.chars ∧
        n.Tidy (Int.log 10 |w|) := by
  have hvalue : value? (-0.00009999999) = some (-(7378696891614058 * 2 ^ (-66 : ℤ))) :=
    value?_eq_some_iff.mpr ⟨true, 7378696891614058, -66, by decide +kernel, by norm_num⟩
  have hnegative : (-(7378696891614058 * 2 ^ (-66 : ℤ)) : ℚ) < 0 := by norm_num
  obtain ⟨w, n, hsix, -, hdenoted, htext, htidy, -⟩ := text_six_digits hvalue hnegative.ne
  rw [if_pos hnegative] at htext
  exact ⟨hvalue, by decide +kernel, w, n, hsix, hdenoted, htext, htidy⟩

example : text 999999.7 = "1e+06" := by decide +kernel

end SolidScript.Number
