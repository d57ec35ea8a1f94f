import SolidScript.Proofs.Text.Decoding
import SolidScript.Token.Rules

namespace SolidScript.Lexical

/-- The text begins with a blank, or it is empty. -/
def Gap (cs : List Char) : Prop := ∀ c ∈ cs.head?, isBlank c

variable {cs tail : List Char} {n : Nat}

theorem Gap.head_ne {c : Char} (hc : isBlank c = false) (h : Gap tail) : tail.head? ≠ some c := by
  intro hhead
  have hblank := h c hhead
  rw [hc] at hblank
  cases hblank

section Runs

variable {p : Char → Bool}

theorem run_cons (c : Char) (cs : List Char) :
    run p (c :: cs) = if p c then 1 + run p cs else 0 := by
  unfold run
  rw [List.takeWhile_cons]
  split
  · rw [List.length_cons, Nat.add_comm]
  · rfl

theorem run_le (cs : List Char) : run p cs ≤ cs.length := by
  induction cs with
  | nil => exact Nat.le_refl _
  | cons c cs ih =>
    rw [run_cons, List.length_cons]
    split <;> omega

/-- A run stops where a text is cut off, if it has not stopped before. -/
theorem run_take_append (h : ∀ c ∈ tail.head?, p c = false) :
    run p (cs.take n ++ tail) = min n (run p cs) := by
  induction cs generalizing n with
  | nil =>
    cases tail with
    | nil => simp [run]
    | cons c tail => simp [run, h c rfl]
  | cons c cs ih =>
    cases n with
    | zero =>
      cases tail with
      | nil => simp [run]
      | cons d tail => simp [run, h d rfl]
    | succ n =>
      rw [List.take_succ_cons, List.cons_append, run_cons, run_cons, ih]
      split <;> omega

theorem Gap.run (hp : ∀ c, isBlank c → p c = false) (h : Gap tail) :
    Lexical.run p (cs.take n ++ tail) = min n (Lexical.run p cs) :=
  run_take_append fun c hc => hp c (h c hc)

end Runs

/-- The four blanks, none of which is a digit or part of a name. -/
theorem isBlank_cases {c : Char} (h : isBlank c) : c = ' ' ∨ c = '\t' ∨ c = '\r' ∨ c = '\n' := by
  simpa [isBlank, or_assoc] using h

theorem isDigit_of_isBlank (c : Char) (h : isBlank c) : c.isDigit = false := by
  obtain rfl | rfl | rfl | rfl := isBlank_cases h <;> rfl

theorem isNamePart_of_isBlank (c : Char) (h : isBlank c) : isNamePart c = false := by
  obtain rfl | rfl | rfl | rfl := isBlank_cases h <;> rfl

theorem isNameStart_of_isBlank (c : Char) (h : isBlank c) : isNameStart c = false := by
  obtain rfl | rfl | rfl | rfl := isBlank_cases h <;> rfl

/-- A text that is cut off does not begin with another character than before, but for a blank. -/
theorem Gap.head_take_ne {c : Char} (hc : isBlank c = false) (h : Gap tail)
    (hcs : cs.head? ≠ some c) : (cs.take n ++ tail).head? ≠ some c := by
  cases n with
  | zero => simpa using h.head_ne hc
  | succ n =>
    cases cs with
    | nil => simpa using h.head_ne hc
    | cons d cs => simpa using hcs

theorem drop_take_append {m : Nat} (hm : m ≤ n) (hlen : m ≤ cs.length) :
    (cs.take n ++ tail).drop m = (cs.drop m).take (n - m) ++ tail := by
  rw [List.drop_append_of_le_length (by rw [List.length_take]; omega), List.drop_take]

section Numbers

theorem mantissa_of_point {rest : List Char}
    (h : cs.drop (run Char.isDigit cs) = '.' :: rest) :
    mantissa cs = if run Char.isDigit cs = 0 ∧ run Char.isDigit rest = 0 then 0
      else run Char.isDigit cs + 1 + run Char.isDigit rest := by
  simp only [mantissa, h]

theorem mantissa_of_not_point (h : (cs.drop (run Char.isDigit cs)).head? ≠ some '.') :
    mantissa cs = run Char.isDigit cs := by
  simp only [mantissa]
  split
  · next hrest => exact absurd (by rw [hrest]; rfl) h
  · rfl

theorem mantissa_cases (cs : List Char) :
    (∃ rest, cs.drop (run Char.isDigit cs) = '.' :: rest) ∨
      (cs.drop (run Char.isDigit cs)).head? ≠ some '.' := by
  cases hrest : cs.drop (run Char.isDigit cs) with
  | nil => exact .inr (by simp)
  | cons c rest =>
    by_cases hc : c = '.'
    · exact .inl ⟨rest, by rw [hc]⟩
    · exact .inr (by simpa using hc)

theorem mantissa_le (cs : List Char) : mantissa cs ≤ cs.length := by
  have hrun := run_le (p := Char.isDigit) cs
  obtain ⟨rest, hrest⟩ | hrest := mantissa_cases cs
  · have hfraction := run_le (p := Char.isDigit) rest
    have hlen := congrArg List.length hrest
    rw [List.length_drop, List.length_cons] at hlen
    rw [mantissa_of_point hrest]
    split <;> omega
  · rw [mantissa_of_not_point hrest]
    exact hrun

theorem mantissa_take_append (h : Gap tail) (hn : mantissa cs ≤ n) :
    mantissa (cs.take n ++ tail) = mantissa cs := by
  have hrun (ds : List Char) (m : Nat) :
      run Char.isDigit (ds.take m ++ tail) = min m (run Char.isDigit ds) :=
    h.run isDigit_of_isBlank
  have hwhole := hrun cs n
  have hlen := run_le (p := Char.isDigit) cs
  obtain ⟨rest, hrest⟩ | hrest := mantissa_cases cs
  · rw [mantissa_of_point hrest] at hn ⊢
    -- Nothing is left of the text only if the point has no digits around it.
    obtain rfl | hpos := Nat.eq_zero_or_pos n
    · have hnone : run Char.isDigit cs = 0 ∧ run Char.isDigit rest = 0 := by
        split at hn <;> omega
      have htail := hrun cs 0
      rw [List.take_zero, List.nil_append, Nat.zero_min] at htail
      rw [if_pos hnone, List.take_zero, List.nil_append, mantissa_of_not_point, htail]
      rw [htail]
      exact h.head_ne rfl
    · have hle : run Char.isDigit cs < n := by
        split at hn <;> omega
      have hsame : run Char.isDigit (cs.take n ++ tail) = run Char.isDigit cs := by omega
      obtain ⟨m, hm⟩ : ∃ m, n - run Char.isDigit cs = m + 1 :=
        ⟨n - run Char.isDigit cs - 1, by omega⟩
      have hdrop : (cs.take n ++ tail).drop (run Char.isDigit (cs.take n ++ tail)) =
          '.' :: (rest.take m ++ tail) := by
        rw [hsame, drop_take_append (by omega) hlen, hrest, hm]
        rfl
      rw [mantissa_of_point hdrop, hsame, hrun]
      split at hn <;> split <;> omega
  · rw [mantissa_of_not_point hrest] at hn ⊢
    have hsame : run Char.isDigit (cs.take n ++ tail) = run Char.isDigit cs := by omega
    rw [mantissa_of_not_point, hsame]
    rw [hsame, drop_take_append hn hlen]
    exact h.head_take_ne rfl hrest

theorem sign_le (cs : List Char) : sign cs ≤ cs.length := by
  unfold sign
  split <;> simp

theorem Gap.sign (h : Gap tail) : Lexical.sign tail = 0 := by
  unfold Lexical.sign
  split
  · exact absurd rfl (h.head_ne (c := '+') rfl)
  · exact absurd rfl (h.head_ne (c := '-') rfl)
  · rfl

theorem sign_le_one (cs : List Char) : sign cs ≤ 1 := by
  unfold sign
  split <;> omega

theorem sign_cons_append (c : Char) (as bs : List Char) : sign (c :: as) = sign (c :: bs) := by
  unfold sign
  split <;> simp_all

theorem sign_take_append (h : Gap tail) : sign (cs.take n ++ tail) = min n (sign cs) := by
  cases n with
  | zero => simpa using h.sign
  | succ n =>
    cases cs with
    | nil => simpa [sign] using h.sign
    | cons c cs =>
      rw [List.take_succ_cons, List.cons_append, sign_cons_append c _ cs]
      have hone := sign_le_one (c :: cs)
      omega

theorem exponent_le (cs : List Char) : exponent cs ≤ cs.length := by
  cases cs with
  | nil => exact Nat.le_refl _
  | cons c cs =>
    have hsign := sign_le cs
    have hdigits := run_le (p := Char.isDigit) (cs.drop (sign cs))
    rw [List.length_drop] at hdigits
    simp only [exponent, List.length_cons]
    split <;> omega

theorem Gap.exponent (h : Gap tail) : Lexical.exponent tail = 0 := by
  cases tail with
  | nil => rfl
  | cons c tail =>
    obtain rfl | rfl | rfl | rfl := isBlank_cases (h c rfl) <;> simp [Lexical.exponent]

theorem exponent_take_append (h : Gap tail) (hn : exponent cs ≤ n) :
    exponent (cs.take n ++ tail) = exponent cs := by
  cases cs with
  | nil => simpa [exponent] using h.exponent
  | cons c cs =>
    cases n with
    | zero => rw [List.take_zero, List.nil_append, h.exponent, Nat.le_zero.mp hn]
    | succ n =>
      rw [List.take_succ_cons, List.cons_append]
      simp only [exponent] at hn ⊢
      by_cases hc : c = 'e' ∨ c = 'E'
      · simp only [hc, true_and] at hn ⊢
        rw [sign_take_append h]
        by_cases hle : sign cs ≤ n
        · rw [Nat.min_eq_right hle, drop_take_append hle (sign_le cs), h.run isDigit_of_isBlank]
          split at hn <;> split <;> omega
        · have hzero : n = 0 := by
            have hone := sign_le_one cs
            omega
          have hnone : run Char.isDigit (cs.take 0 ++ tail) = min 0 (run Char.isDigit cs) :=
            h.run isDigit_of_isBlank
          rw [List.take_zero, List.nil_append, Nat.zero_min] at hnone
          subst hzero
          simp only [Nat.zero_min, List.take_zero, List.nil_append, List.drop_zero, hnone]
          split at hn <;> simp <;> omega
      · simp only [hc, false_and, if_false]

theorem number_le (cs : List Char) : number cs ≤ cs.length := by
  have hmantissa := mantissa_le cs
  have hexponent := exponent_le (cs.drop (mantissa cs))
  rw [List.length_drop] at hexponent
  simp only [number]
  split <;> omega

theorem number_take_append (h : Gap tail) (hn : number cs ≤ n) :
    number (cs.take n ++ tail) = number cs := by
  simp only [number] at hn ⊢
  split at hn
  · next hzero =>
    rw [mantissa_take_append h (by omega), if_pos hzero]
    simp [hzero]
  · next hpos =>
    rw [mantissa_take_append h (by omega), if_neg hpos,
      drop_take_append (by omega) (mantissa_le cs), exponent_take_append h (by omega), if_neg hpos]

end Numbers

section Strings

open Escape (Guarded)

variable {text : List Char}

theorem stringBody_plain {c : Char} (hslash : c ≠ '\\') (hquote : c ≠ '"') (cs : List Char) :
    stringBody (c :: cs) = (stringBody cs).map (1 + ·) := by
  rw [stringBody]
  · exact hquote
  · rintro d ds rfl rfl
    exact hslash rfl

theorem stringBody_of_guarded (h : Guarded text) (rest : List Char) :
    stringBody (text ++ '"' :: rest) = some (text.length + 1) := by
  induction h with
  | nil => rfl
  | @plain c cs hslash hquote _ ih =>
    rw [List.cons_append, stringBody_plain hslash hquote, ih, Option.map_some, Nat.add_comm,
      List.length_cons]
  | @escaped c cs _ ih =>
    have hescape (tail : List Char) :
        stringBody ('\\' :: c :: tail) = (stringBody tail).map (2 + ·) := by simp [stringBody]
    rw [List.cons_append, List.cons_append, hescape, ih, Option.map_some, Nat.add_comm]
    rfl

/-- The inside of a string ends at the first quote that no backslash protects. -/
theorem stringBody_eq_some_iff {k : Nat} : stringBody cs = some k ↔
    ∃ text rest, cs = text ++ '"' :: rest ∧ Guarded text ∧ k = text.length + 1 := by
  constructor
  · intro h
    fun_induction stringBody cs generalizing k with
    | case1 => cases h
    | case2 cs => exact ⟨[], cs, rfl, .nil, (Option.some.inj h).symm⟩
    | case3 c cs ih =>
      obtain ⟨j, hj, rfl⟩ := Option.map_eq_some_iff.mp h
      obtain ⟨text, rest, rfl, htext, rfl⟩ := ih hj
      exact ⟨'\\' :: c :: text, rest, rfl, .escaped htext, Nat.add_comm _ _⟩
    | case4 c cs hquote hslash ih =>
      obtain ⟨j, hj, rfl⟩ := Option.map_eq_some_iff.mp h
      obtain ⟨text, rest, rfl, htext, rfl⟩ := ih hj
      -- A backslash with nothing behind it protects nothing, but then no quote closes the string.
      have hplain : c ≠ '\\' := by
        rintro rfl
        obtain ⟨d, ds, hds⟩ := List.exists_cons_of_ne_nil (List.append_ne_nil_of_right_ne_nil text
          (List.cons_ne_nil '"' rest))
        exact hslash d ds rfl hds
      exact ⟨c :: text, rest, rfl, .plain hplain hquote htext, Nat.add_comm _ _⟩
  · rintro ⟨text, rest, rfl, htext, rfl⟩
    exact stringBody_of_guarded htext rest

theorem quoted_of_guarded (h : Guarded text) (rest : List Char) :
    quoted ('"' :: (text ++ '"' :: rest)) = text.length + 2 := by
  rw [quoted, stringBody_of_guarded h, Option.map_some, Option.getD_some, Nat.add_comm]

/-- A string has a quote on either side, and no other that a backslash does not protect. -/
theorem quoted_cases (hpos : 0 < quoted cs) : ∃ text rest, cs = '"' :: (text ++ '"' :: rest) ∧
    Guarded text ∧ quoted cs = text.length + 2 := by
  have hbody : ∃ inner k, cs = '"' :: inner ∧ stringBody inner = some k := by
    unfold quoted at hpos
    split at hpos
    · next inner =>
      cases hbody : stringBody inner with
      | none => simp [hbody] at hpos
      | some k => exact ⟨inner, k, rfl, hbody⟩
    · omega
  obtain ⟨inner, k, rfl, hbody⟩ := hbody
  obtain ⟨text, rest, rfl, htext, _⟩ := stringBody_eq_some_iff.mp hbody
  exact ⟨text, rest, rfl, htext, quoted_of_guarded htext rest⟩

theorem quoted_take (hpos : 0 < quoted cs) :
    ∃ text, cs.take (quoted cs) = '"' :: (text ++ ['"']) ∧ Guarded text := by
  obtain ⟨text, rest, rfl, htext, hquoted⟩ := quoted_cases hpos
  refine ⟨text, ?_, htext⟩
  rw [hquoted, List.take_succ_cons, List.take_length_add_append]
  rfl

theorem quoted_le (cs : List Char) : quoted cs ≤ cs.length := by
  obtain hzero | hpos := Nat.eq_zero_or_pos (quoted cs)
  · omega
  · obtain ⟨text, rest, hcs, _, hquoted⟩ := quoted_cases hpos
    rw [hquoted, hcs, List.length_cons, List.length_append, List.length_cons]
    omega

/-- What stands behind the closing quote means nothing to a string, blank or not. -/
theorem quoted_take_append (hpos : 0 < quoted cs) (hn : quoted cs ≤ n) :
    quoted (cs.take n ++ tail) = quoted cs := by
  obtain ⟨text, rest, rfl, htext, hquoted⟩ := quoted_cases hpos
  rw [hquoted] at hn ⊢
  obtain ⟨m, rfl⟩ := Nat.exists_eq_add_of_le hn
  have htake : ('"' :: (text ++ '"' :: rest)).take (text.length + 2 + m) =
      '"' :: (text ++ '"' :: rest.take m) := by
    have hlength : text.length + 2 + m = text.length + (m + 1) + 1 := by omega
    rw [hlength, List.take_succ_cons, List.take_length_add_append, List.take_succ_cons]
  rw [htake, List.cons_append, List.append_assoc]
  exact quoted_of_guarded htext (rest.take m ++ tail)

end Strings

section Names

theorem name_cons (c : Char) (cs : List Char) :
    name (c :: cs) = if isNameStart c then 1 + run isNamePart cs else 0 := rfl

theorem name_le (cs : List Char) : name cs ≤ cs.length := by
  cases cs with
  | nil => exact Nat.le_refl _
  | cons c cs =>
    have hrun := run_le (p := isNamePart) cs
    rw [name_cons, List.length_cons]
    split <;> omega

theorem Gap.name (h : Gap tail) : Lexical.name tail = 0 := by
  cases tail with
  | nil => rfl
  | cons c tail => rw [name_cons, isNameStart_of_isBlank c (h c rfl), if_neg (by simp)]

theorem name_take_append (h : Gap tail) (hn : name cs ≤ n) :
    name (cs.take n ++ tail) = name cs := by
  cases cs with
  | nil => simpa [name] using h.name
  | cons c cs =>
    cases n with
    | zero => rw [List.take_zero, List.nil_append, h.name, Nat.le_zero.mp hn]
    | succ n =>
      rw [List.take_succ_cons, List.cons_append]
      rw [name_cons] at hn ⊢
      rw [name_cons, h.run isNamePart_of_isBlank]
      by_cases hc : isNameStart c
      · simp only [hc, if_true] at hn ⊢
        omega
      · simp only [hc, if_false, Bool.false_eq_true]

theorem specialName_dollar (cs : List Char) :
    specialName ('$' :: cs) = if name cs = 0 then 0 else 1 + name cs := rfl

theorem specialName_of_ne {c : Char} (hc : c ≠ '$') : specialName (c :: cs) = 0 := by
  unfold specialName
  split
  · next heq => exact absurd (List.cons.inj heq).1 hc
  · rfl

theorem Gap.specialName (h : Gap tail) : Lexical.specialName tail = 0 := by
  cases tail with
  | nil => rfl
  | cons c tail =>
    apply specialName_of_ne
    rintro rfl
    exact absurd rfl (h.head_ne (c := '$') rfl)

theorem specialName_le (cs : List Char) : specialName cs ≤ cs.length := by
  unfold specialName
  split
  · next cs =>
    have hle := name_le cs
    rw [List.length_cons]
    split <;> omega
  · exact Nat.zero_le _

theorem specialName_take_append (h : Gap tail) (hn : specialName cs ≤ n) :
    specialName (cs.take n ++ tail) = specialName cs := by
  cases cs with
  | nil => simpa [specialName] using h.specialName
  | cons c cs =>
    cases n with
    | zero => rw [List.take_zero, List.nil_append, h.specialName, Nat.le_zero.mp hn]
    | succ n =>
      rw [List.take_succ_cons, List.cons_append]
      by_cases hc : c = '$'
      · subst hc
        rw [specialName_dollar] at hn ⊢
        rw [specialName_dollar]
        by_cases hname : name cs = 0
        · rw [name_take_append h (by omega)]
        · rw [if_neg hname] at hn
          rw [name_take_append h (by omega)]
      · rw [specialName_of_ne hc, specialName_of_ne hc]

/-- Whether a name is a keyword is seen from its text alone. -/
theorem keyword_take_append (h : Gap tail) (hn : name cs ≤ n) :
    keyword (cs.take n ++ tail) = keyword cs := by
  have htake : (cs.take n ++ tail).take (name cs) = cs.take (name cs) := by
    rw [List.take_append_of_le_length (by rw [List.length_take]; have := name_le cs; omega),
      List.take_take, Nat.min_eq_left hn]
  rw [keyword, name_take_append h hn, htake, keyword]

end Names

section Punctuation

theorem punct_cons {c : Char} (h : c = '/' → cs.head? ≠ some '*') :
    punct (c :: cs) = if c :: cs.take 1 ∈ pairs then 2 else if c ∈ singles then 1 else 0 := by
  unfold punct
  split
  · next heq =>
    obtain ⟨rfl, rfl⟩ := List.cons.inj heq
    exact absurd rfl (h rfl)
  · next heq => cases heq
  · next heq =>
    obtain ⟨rfl, rfl⟩ := List.cons.inj heq
    rfl

theorem punct_comment (cs : List Char) : punct ('/' :: '*' :: cs) = 0 := rfl

theorem pairs_length {l : List Char} (h : l ∈ pairs) : l.length = 2 := by
  revert l
  decide

theorem Gap.not_mem_pairs {c : Char} (h : Gap tail) : c :: tail.take 1 ∉ pairs := by
  intro hpair
  cases tail with
  | nil => cases pairs_length hpair
  | cons d tail => obtain rfl | rfl | rfl | rfl := isBlank_cases (h d rfl) <;> simp [pairs] at hpair

theorem punct_le (cs : List Char) : punct cs ≤ cs.length := by
  unfold punct
  split
  · exact Nat.zero_le _
  · exact Nat.le_refl _
  · next c cs _ =>
    split
    · next hpair =>
      have hlen := pairs_length hpair
      simp only [List.length_cons, List.length_take] at hlen ⊢
      omega
    · split <;> simp

theorem punct_take_append (h : Gap tail) (hpos : 0 < punct cs) (hn : punct cs ≤ n) :
    punct (cs.take n ++ tail) = punct cs := by
  cases cs with
  | nil => cases hpos
  | cons c cs =>
    obtain ⟨m, rfl⟩ : ∃ m, n = m + 1 := ⟨n - 1, by omega⟩
    have hopen : c = '/' → cs.head? ≠ some '*' := by
      rintro rfl hhead
      obtain ⟨d, ds, rfl⟩ := List.exists_cons_of_ne_nil (l := cs) (by rintro rfl; cases hhead)
      obtain rfl := Option.some.inj hhead
      rw [punct_comment] at hpos
      omega
    rw [List.take_succ_cons, List.cons_append, punct_cons hopen,
      punct_cons fun hc => h.head_take_ne rfl (hopen hc)]
    rw [punct_cons hopen] at hn
    have hpair : (c :: (cs.take m ++ tail).take 1 ∈ pairs) = (c :: cs.take 1 ∈ pairs) := by
      cases m with
      | zero =>
        have hsingle : c :: cs.take 1 ∉ pairs := fun hmem => by
          rw [if_pos hmem] at hn
          omega
        simp [hsingle, h.not_mem_pairs]
      | succ m =>
        cases cs with
        | nil =>
          have hsingle : [c] ∉ pairs := fun hmem => absurd (pairs_length hmem) (by simp)
          simp [h.not_mem_pairs, hsingle]
        | cons d cs => rfl
    simp only [hpair]

end Punctuation

end SolidScript.Lexical
