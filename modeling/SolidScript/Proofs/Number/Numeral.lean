import Mathlib.Data.List.DropRight
import SolidScript.Proofs.Number.Rounding

namespace SolidScript.Number

/-- The whole part, and behind it a point and the fraction, unless there is none. -/
def pointed (whole fraction : List Char) : List Char :=
  whole ++ if fraction = [] then [] else '.' :: fraction

section Trimming

theorem trimZeros_concat_zero (cs : List Char) : trimZeros (cs ++ ['0']) = trimZeros cs :=
  List.rdropWhile_concat_pos _ _ _ (by decide)

theorem trimZeros_concat {c : Char} (hc : c ≠ '0') (cs : List Char) :
    trimZeros (cs ++ [c]) = cs ++ [c] :=
  List.rdropWhile_concat_neg _ _ _ (by simpa using hc)

theorem trimZeros_append_zeros (cs : List Char) (n : Nat) :
    trimZeros (cs ++ List.replicate n '0') = trimZeros cs := by
  induction n with
  | zero => rw [List.replicate_zero, List.append_nil]
  | succ n ih => rw [List.replicate_succ', ← List.append_assoc, trimZeros_concat_zero, ih]

/-- What is left out are zeros. -/
theorem exists_trimmed (cs : List Char) : ∃ n, cs = trimZeros cs ++ List.replicate n '0' := by
  induction cs using List.reverseRecOn with
  | nil => exact ⟨0, rfl⟩
  | append_singleton cs c ih =>
    by_cases hc : c = '0'
    · obtain ⟨n, hn⟩ := ih
      refine ⟨n + 1, ?_⟩
      rw [hc, trimZeros_concat_zero, List.replicate_succ', ← List.append_assoc, ← hn]
    · exact ⟨0, by rw [trimZeros_concat hc]; simp⟩

theorem trimZeros_initial (cs : List Char) : trimZeros cs <+: cs := List.rdropWhile_prefix _ _

theorem getLast?_trimZeros (cs : List Char) : (trimZeros cs).getLast? ≠ some '0' := by
  induction cs using List.reverseRecOn with
  | nil => nofun
  | append_singleton cs c ih =>
    by_cases hc : c = '0'
    · rwa [hc, trimZeros_concat_zero]
    · rw [trimZeros_concat hc, List.getLast?_concat]
      exact fun hzero => hc (Option.some.inj hzero)

theorem joinFraction_eq (whole fraction : List Char) :
    joinFraction whole fraction = pointed whole (trimZeros fraction) := by
  unfold joinFraction pointed
  split
  case h_1 hnil => rw [hnil, if_pos rfl, List.append_nil]
  case h_2 hsome => rw [if_neg hsome]

end Trimming

section Reading

variable {whole fraction rest : List Char} {e : ℤ}

/-- Digits are taken off the front until something else comes. -/
theorem span_digits {ds rest : List Char} (hds : Digits ds)
    (hrest : ∀ c, rest.head? = some c → c.isDigit = false) :
    (ds ++ rest).span Char.isDigit = (ds, rest) := by
  rw [List.span_eq_takeWhile_dropWhile, List.takeWhile_append_of_pos hds,
    List.dropWhile_append_of_pos hds]
  cases rest with
  | nil => simp
  | cons c rest =>
    have hstop := hrest c rfl
    rw [List.takeWhile_cons_of_neg (by simp [hstop]), List.dropWhile_cons_of_neg (by simp [hstop]),
      List.append_nil]

/-- The value of a numeral that is read. -/
def Decimal.value (d : Decimal) : ℚ := d.digits * 10 ^ d.exponent

/-- A numeral with a point may have digits on one side only. -/
theorem Decimal.read?_point (hsome : ¬(whole = [] ∧ fraction = [])) (hwhole : Digits whole)
    (hfraction : Digits fraction) (hrest : ∀ c, rest.head? = some c → c.isDigit = false)
    (he : readExponent? rest = some e) :
    Decimal.read? (whole ++ '.' :: (fraction ++ rest)) =
      some ⟨ofDigits (whole ++ fraction), e - fraction.length⟩ := by
  have hfirst : (whole ++ '.' :: (fraction ++ rest)).span Char.isDigit =
      (whole, '.' :: (fraction ++ rest)) := by
    refine span_digits hwhole fun c hc => ?_
    obtain rfl := Option.some.inj hc
    rfl
  have hsecond : takeFraction ('.' :: (fraction ++ rest)) = (fraction, rest) :=
    span_digits hfraction hrest
  simp only [Decimal.read?, hfirst, hsecond, hsome, if_false, he, Option.map_some]

theorem Decimal.read?_pointed (hne : whole ≠ []) (hwhole : Digits whole)
    (hfraction : Digits fraction)
    (hrest : ∀ c, rest.head? = some c → c.isDigit = false ∧ c ≠ '.')
    (he : readExponent? rest = some e) :
    Decimal.read? (pointed whole fraction ++ rest) =
      some ⟨ofDigits (whole ++ fraction), e - fraction.length⟩ := by
  have hstop : ∀ c, rest.head? = some c → c.isDigit = false := fun c hc => (hrest c hc).1
  by_cases hnone : fraction = []
  · subst hnone
    have hpoint : takeFraction rest = ([], rest) := by
      unfold takeFraction
      split
      · exact absurd rfl (hrest '.' rfl).2
      · rfl
    simp only [pointed, if_pos, List.append_nil, Decimal.read?, span_digits hwhole hstop, hpoint,
      hne, false_and, if_false, he, Option.map_some]
  · rw [pointed, if_neg hnone, List.append_assoc]
    exact Decimal.read?_point (fun hempty => hne hempty.1) hwhole hfraction hstop he

/-- Zeros at the end of a fraction have no value. -/
theorem Decimal.value_trimZeros (whole fraction : List Char) (e : ℤ) :
    (Decimal.mk (ofDigits (whole ++ trimZeros fraction))
      (e - (trimZeros fraction).length)).value =
      (Decimal.mk (ofDigits (whole ++ fraction)) (e - fraction.length)).value := by
  obtain ⟨n, hn⟩ := exists_trimmed fraction
  have hlength : fraction.length = (trimZeros fraction).length + n := by
    conv_lhs => rw [hn]
    rw [List.length_append, List.length_replicate]
  have hdigits :
      ofDigits (whole ++ fraction) = 10 ^ n * ofDigits (whole ++ trimZeros fraction) := by
    conv_lhs => rw [hn, ← List.append_assoc, ofDigits_append, List.length_replicate, ofDigits_zeros]
    rfl
  have hten : (10 : ℚ) ≠ 0 := by norm_num
  simp only [value, hdigits, hlength]
  rw [Nat.cast_mul, Nat.cast_pow, Nat.cast_add, Nat.cast_ofNat, mul_comm ((10 : ℚ) ^ n), mul_assoc,
    ← zpow_natCast, ← zpow_add₀ hten]
  congr 2
  ring

end Reading

/-- A numeral in its parts. -/
structure Numeral where
  whole : List Char
  fraction : List Char
  /-- In scientific form, the exponent with its letter. -/
  tail : List Char

/-- The numeral as it is written. -/
def Numeral.chars (n : Numeral) : List Char := pointed n.whole n.fraction ++ n.tail

/-- The exponent of a scientific form. -/
def scale (x : ℤ) : List Char := 'e' :: (if x < 0 then '-' else '+') :: twoDigits x.natAbs

section Scale

theorem digits_twoDigits (n : Nat) : Digits (twoDigits n) := by
  unfold twoDigits
  split
  · exact (digits_zeros 1).append (digits_toDigits n)
  · exact digits_toDigits n

theorem ofDigits_twoDigits (n : Nat) : ofDigits (twoDigits n) = n := by
  unfold twoDigits
  split
  · change ofDigits (['0'] ++ Nat.toDigits 10 n) = n
    rw [ofDigits_append, ofDigits_toDigits]
    exact Nat.zero_add n
  · exact ofDigits_toDigits n

theorem length_twoDigits (n : Nat) : 2 ≤ (twoDigits n).length := by
  unfold twoDigits
  split
  case isTrue hone =>
    have hpos : 0 < (Nat.toDigits 10 n).length := Nat.length_toDigits_pos
    rw [List.length_cons]
    omega
  case isFalse hmore =>
    by_contra hshort
    have hone : n < 10 ^ 1 :=
      (Nat.length_toDigits_le_iff (by decide) (by decide : 0 < 1)).mp (by omega)
    omega

theorem readExponent?_scale (x : ℤ) : readExponent? (scale x) = some x := by
  have hdigits : (twoDigits x.natAbs).all Char.isDigit := List.all_eq_true.mpr (digits_twoDigits _)
  have hne : twoDigits x.natAbs ≠ [] :=
    List.ne_nil_of_length_pos (Nat.lt_of_lt_of_le (by decide) (length_twoDigits _))
  by_cases hneg : x < 0
  · simp [scale, readExponent?, takeSign, hneg, hdigits, hne, ofDigits_twoDigits, abs_of_neg]
  · simp [scale, readExponent?, takeSign, hneg, hdigits, hne, ofDigits_twoDigits, not_lt.mp hneg]

end Scale

/-- The numeral with the zeros at the end of its fraction left out. -/
def Numeral.trim (n : Numeral) : Numeral := { n with fraction := trimZeros n.fraction }

/-- The numeral that all digits of a rounded number are written as. -/
def Rounded.layout (r : Rounded) : Numeral :=
  let ds := Nat.toDigits 10 r.digits
  if -4 ≤ r.exponent ∧ r.exponent < 6 then
    if r.exponent < 0 then ⟨['0'], List.replicate (-r.exponent - 1).toNat '0' ++ ds, []⟩
    else ⟨ds.take (r.exponent.toNat + 1), ds.drop (r.exponent.toNat + 1), []⟩
  else ⟨ds.take 1, ds.drop 1, scale r.exponent⟩

theorem Rounded.chars_eq (r : Rounded) : r.chars = r.layout.trim.chars := by
  simp only [chars, positional, scientific, layout, joinFraction_eq, scale]
  split
  · split <;> simp [Numeral.chars, Numeral.trim]
  · rfl

/-- A numeral writes the digits of a rounded number, perhaps with zeros in front of them, and gives
them their place by its point and its exponent. -/
structure Numeral.Spells (n : Numeral) (r : Rounded) : Prop where
  whole_ne : n.whole ≠ []
  digits : ∃ k, n.whole ++ n.fraction = List.replicate k '0' ++ Nat.toDigits 10 r.digits
  place : readExponent? n.tail = some (r.exponent - 5 + n.fraction.length)
  tail_head : ∀ c, n.tail.head? = some c → c = 'e'

section Spells

variable {n : Numeral} {r : Rounded}

theorem Rounded.Full.length_digits (h : r.Full) : (Nat.toDigits 10 r.digits).length = 6 :=
  (length_toDigits_iff (Nat.lt_of_lt_of_le (by decide) h.1)).mpr h

theorem Rounded.Full.layout_spells (h : r.Full) : r.layout.Spells r := by
  have hlength := h.length_digits
  simp only [layout]
  split
  case isTrue hfixed =>
    split
    case isTrue hneg =>
      refine ⟨List.cons_ne_nil _ _, ⟨(-r.exponent - 1).toNat + 1, rfl⟩, ?_, nofun⟩
      rw [List.length_append, List.length_replicate, hlength]
      exact congrArg some (by omega)
    case isFalse hpos =>
      refine ⟨?_, ⟨0, List.take_append_drop _ _⟩, ?_, nofun⟩
      · exact List.ne_nil_of_length_pos (by rw [List.length_take]; omega)
      · rw [List.length_drop, hlength]
        exact congrArg some (by omega)
  case isFalse hscientific =>
    refine ⟨?_, ⟨0, List.take_append_drop _ _⟩, ?_, fun c hc => (Option.some.inj hc).symm⟩
    · exact List.ne_nil_of_length_pos (by rw [List.length_take]; omega)
    · rw [List.length_drop, hlength, readExponent?_scale]
      exact congrArg some (by omega)

theorem Numeral.Spells.isDigit (h : n.Spells r) : Digits (n.whole ++ n.fraction) := by
  obtain ⟨k, hk⟩ := h.digits
  exact hk ▸ (digits_zeros k).append (digits_toDigits _)

theorem Numeral.Spells.digits_trim (h : n.Spells r) : Digits (n.trim.whole ++ n.trim.fraction) :=
  h.isDigit.of_sublist ((List.Sublist.refl _).append (trimZeros_initial _).sublist)

theorem Numeral.Spells.read?_trim (h : n.Spells r) :
    ∃ d, Decimal.read? n.trim.chars = some d ∧ d.value = r.value := by
  obtain ⟨hwhole, hfraction⟩ := List.forall_mem_append.mp h.digits_trim
  obtain ⟨k, hk⟩ := h.digits
  have hread := Decimal.read?_pointed h.whole_ne hwhole hfraction
    (fun c hc => by rw [h.tail_head c hc]; decide) h.place
  refine ⟨_, hread, ?_⟩
  rw [Numeral.trim, Decimal.value_trimZeros, hk, ofDigits_append, ofDigits_zeros, ofDigits_toDigits]
  simp only [Decimal.value, Rounded.value, Nat.mul_zero, Nat.zero_add, add_sub_cancel_right]

end Spells

end SolidScript.Number
