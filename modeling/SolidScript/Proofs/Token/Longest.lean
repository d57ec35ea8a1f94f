import SolidScript.Proofs.Token.Emission

namespace SolidScript

namespace Lexical

/-- At least one digit, and nothing else. -/
def IsDigits (cs : List Char) : Prop := cs ≠ [] ∧ ∀ c ∈ cs, c.isDigit

/-- Digits, with a point and a fraction behind them that may be empty, or a point in front. -/
inductive IsMantissa : List Char → Prop
  | whole {ds : List Char} (h : IsDigits ds) : IsMantissa ds
  | pointed {ds fs : List Char} (h : IsDigits ds) (hfraction : fs = [] ∨ IsDigits fs) :
    IsMantissa (ds ++ '.' :: fs)
  | leading {fs : List Char} (h : IsDigits fs) : IsMantissa ('.' :: fs)

/-- A mark, an optional sign, and digits. -/
inductive IsExponent : List Char → Prop
  | marked {mark : Char} {sign ds : List Char} (hmark : mark ∈ ['e', 'E'])
    (hsign : sign ∈ [[], ['+'], ['-']]) (h : IsDigits ds) : IsExponent (mark :: (sign ++ ds))

/-- A letter or an underscore, and behind it letters, digits and underscores. -/
inductive IsName : List Char → Prop
  | word {c : Char} {cs : List Char} (hfirst : c.isAlpha ∨ c = '_')
    (hrest : ∀ d ∈ cs, d.isAlphanum ∨ d = '_') : IsName (c :: cs)

/-- The texts that a kind of token may have. Keywords are not told apart from other names. -/
inductive Class : TokenKind → List Char → Prop
  | blanks {cs : List Char} (hne : cs ≠ []) (h : ∀ c ∈ cs, c ∈ [' ', '\t', '\r', '\n']) :
    Class .whitespace cs
  | plain {cs : List Char} (h : IsMantissa cs) : Class .number cs
  | scaled {cs xs : List Char} (h : IsMantissa cs) (hexponent : IsExponent xs) :
    Class .number (cs ++ xs)
  | identifier {cs : List Char} (h : IsName cs) : Class .identifier cs
  | keyword {cs : List Char} (h : IsName cs) : Class .keyword cs
  | special {cs : List Char} (h : IsName cs) : Class .specialIdentifier ('$' :: cs)
  | pair {cs : List Char} (h : cs ∈ pairs) : Class .punct cs
  | single {c : Char} (h : c ∈ singles) : Class .punct [c]

variable {cs ds xs tail : List Char} {c : Char} {kind : TokenKind} {n : Nat}

section Runs

variable {p : Char → Bool}

theorem run_append (h : ∀ c ∈ cs, p c) : run p (cs ++ tail) = cs.length + run p tail := by
  rw [run, List.takeWhile_append_of_pos h, List.length_append, run]

theorem run_of_head (h : ∀ c ∈ cs.head?, p c = false) : run p cs = 0 := by
  cases cs with
  | nil => simp [run]
  | cons c cs => simp [run, h c rfl]

theorem isDigits_run (h : 0 < run Char.isDigit cs) :
    IsDigits (cs.take (run Char.isDigit cs)) := by
  refine ⟨?_, run_forall⟩
  intro hnil
  have hlength := congrArg List.length hnil
  rw [List.length_take_of_le (run_le cs), List.length_nil] at hlength
  omega

theorem IsDigits.pos (h : IsDigits ds) : 0 < ds.length := List.length_pos_iff.mpr h.1

theorem IsDigits.run (h : IsDigits ds) (tail : List Char) :
    Lexical.run Char.isDigit (ds ++ tail) = ds.length + Lexical.run Char.isDigit tail :=
  run_append h.2

end Runs

section Numbers

/-- What the rule takes of a numeral without its exponent is in the class. -/
theorem isMantissa_take (h : 0 < mantissa cs) : IsMantissa (cs.take (mantissa cs)) := by
  obtain ⟨rest, hrest⟩ | hrest := mantissa_cases cs
  · rw [mantissa_of_point hrest] at h ⊢
    split at h
    · omega
    · next hsome =>
      rw [if_neg hsome, Nat.add_assoc, List.take_add, hrest, Nat.add_comm 1, List.take_succ_cons]
      obtain hwhole | hwhole := Nat.eq_zero_or_pos (run Char.isDigit cs)
      · rw [hwhole, List.take_zero, List.nil_append]
        exact .leading (isDigits_run (by omega))
      · refine .pointed (isDigits_run hwhole) ?_
        obtain hfraction | hfraction := Nat.eq_zero_or_pos (run Char.isDigit rest)
        · exact .inl (by rw [hfraction, List.take_zero])
        · exact .inr (isDigits_run hfraction)
  · rw [mantissa_of_not_point hrest] at h ⊢
    exact .whole (isDigits_run h)

theorem run_le_mantissa (cs : List Char) : run Char.isDigit cs ≤ mantissa cs := by
  obtain ⟨rest, hrest⟩ | hrest := mantissa_cases cs
  · rw [mantissa_of_point hrest]
    split <;> omega
  · exact Nat.le_of_eq (mantissa_of_not_point hrest).symm

/-- A point with digits on one side at least belongs to the numeral. -/
theorem mantissa_pointed {fs : List Char} (hds : ∀ c ∈ ds, c.isDigit) (hfs : ∀ c ∈ fs, c.isDigit)
    (hsome : ds ≠ [] ∨ fs ≠ []) :
    mantissa (ds ++ '.' :: fs ++ tail) = (ds ++ '.' :: fs).length + run Char.isDigit tail := by
  have hpoint : run Char.isDigit ('.' :: (fs ++ tail)) = 0 := run_of_head (by simp)
  have hwhole : run Char.isDigit (ds ++ '.' :: (fs ++ tail)) = ds.length := by
    rw [run_append hds, hpoint, Nat.add_zero]
  have hdrop : (ds ++ '.' :: (fs ++ tail)).drop
      (run Char.isDigit (ds ++ '.' :: (fs ++ tail))) = '.' :: (fs ++ tail) := by
    rw [hwhole, List.drop_left]
  have hnonempty : ¬(ds.length = 0 ∧ fs.length + run Char.isDigit tail = 0) := by
    simp only [← List.length_pos_iff] at hsome
    omega
  rw [List.append_assoc, List.cons_append, mantissa_of_point hdrop, hwhole, run_append hfs,
    if_neg hnonempty, List.length_append, List.length_cons]
  omega

/-- The rule takes at least as much, and no more if what comes behind cannot belong to it. -/
theorem IsMantissa.taken (h : IsMantissa cs) (tail : List Char) :
    cs.length ≤ mantissa (cs ++ tail) ∧
      ((∀ c ∈ tail.head?, c.isDigit = false ∧ c ≠ '.') → mantissa (cs ++ tail) = cs.length) := by
  have hstop (h : ∀ c ∈ tail.head?, c.isDigit = false ∧ c ≠ '.') : run Char.isDigit tail = 0 :=
    run_of_head fun c hc => (h c hc).1
  cases h with
  | whole h =>
    have hrun := h.run tail
    have hle := run_le_mantissa (cs ++ tail)
    refine ⟨by omega, fun htail => ?_⟩
    rw [hstop htail, Nat.add_zero] at hrun
    rw [mantissa_of_not_point, hrun]
    rw [hrun, List.drop_left]
    intro hpoint
    exact (htail '.' hpoint).2 rfl
  | @pointed ds fs h hfraction =>
    have hfs : ∀ c ∈ fs, c.isDigit := by
      obtain rfl | hfs := hfraction
      · nofun
      · exact hfs.2
    rw [mantissa_pointed h.2 hfs (.inl h.1)]
    exact ⟨Nat.le_add_right _ _, fun htail => by rw [hstop htail, Nat.add_zero]⟩
  | @leading fs h =>
    have htaken : mantissa ([] ++ '.' :: fs ++ tail) = ([] ++ '.' :: fs).length + _ :=
      mantissa_pointed nofun h.2 (.inr h.1)
    rw [List.nil_append] at htaken
    rw [htaken]
    exact ⟨Nat.le_add_right _ _, fun htail => by rw [hstop htail, Nat.add_zero]⟩

theorem IsMantissa.pos (h : IsMantissa cs) : 0 < cs.length := by
  cases h with
  | whole h => exact h.pos
  | pointed h =>
    have hpos := h.pos
    rw [List.length_append]
    omega
  | leading => simp

theorem sign_signed {signs : List Char} (hsign : signs ∈ [[], ['+'], ['-']]) (h : IsDigits ds) :
    sign (signs ++ (ds ++ tail)) = signs.length := by
  obtain ⟨d, ds, rfl⟩ := List.exists_cons_of_ne_nil h.1
  have hdigit : d.isDigit := h.2 d List.mem_cons_self
  simp only [List.mem_cons, List.not_mem_nil, or_false] at hsign
  obtain rfl | rfl | rfl := hsign
  · unfold sign
    split
    · next heq => simp_all
    · next heq => simp_all
    · simp
  · simp [sign]
  · simp [sign]

theorem take_sign (cs : List Char) : cs.take (sign cs) ∈ [[], ['+'], ['-']] := by
  unfold sign
  split <;> simp

theorem isExponent_take (h : 0 < exponent cs) : IsExponent (cs.take (exponent cs)) := by
  cases cs with
  | nil => simp [exponent] at h
  | cons c cs =>
    simp only [exponent] at h ⊢
    split at h
    · next hsome =>
      obtain ⟨hmark, hdigits⟩ := hsome
      rw [if_pos ⟨hmark, hdigits⟩, Nat.add_assoc, Nat.add_comm, List.take_succ_cons, List.take_add]
      exact .marked (by simpa using hmark) (take_sign cs) (isDigits_run hdigits)
    · omega

theorem IsExponent.taken (h : IsExponent xs) (tail : List Char) :
    xs.length ≤ exponent (xs ++ tail) := by
  obtain ⟨hmark, hsign, hdigits⟩ := h
  next mark signs ds =>
  have hpos := hdigits.pos
  have hrun := hdigits.run tail
  rw [List.cons_append, List.append_assoc]
  simp only [exponent, sign_signed hsign hdigits, List.drop_left, hrun]
  rw [if_pos ⟨by simpa using hmark, by omega⟩, List.length_cons, List.length_append]
  omega

/-- An exponent does not begin like the rest of a mantissa. -/
theorem IsExponent.head (h : IsExponent xs) (tail : List Char) :
    ∀ c ∈ (xs ++ tail).head?, c.isDigit = false ∧ c ≠ '.' := by
  obtain ⟨hmark, _, _⟩ := h
  rintro _ ⟨⟩
  simp only [List.mem_cons, List.not_mem_nil, or_false] at hmark
  obtain rfl | rfl := hmark
  · decide
  · decide

theorem class_number (h : 0 < number cs) : Class .number (cs.take (number cs)) := by
  simp only [number] at h ⊢
  split at h
  · omega
  · next hsome =>
    have hmantissa := isMantissa_take (Nat.pos_of_ne_zero hsome)
    rw [if_neg hsome, List.take_add]
    obtain hzero | hpos := Nat.eq_zero_or_pos (exponent (cs.drop (mantissa cs)))
    · rw [hzero, List.take_zero, List.append_nil]
      exact .plain hmantissa
    · exact .scaled hmantissa (isExponent_take hpos)

theorem number_longest (h : Class .number cs) (tail : List Char) :
    cs.length ≤ number (cs ++ tail) := by
  cases h with
  | plain h =>
    have hpos := h.pos
    have hle := (h.taken tail).1
    simp only [number]
    split <;> omega
  | @scaled ms xs h hexponent =>
    have hpos := h.pos
    have htaken := (h.taken (xs ++ tail)).2 (hexponent.head tail)
    have hmore := hexponent.taken tail
    rw [List.append_assoc]
    simp only [number, htaken, List.drop_left]
    rw [if_neg (by omega), List.length_append]
    omega

end Numbers

section Words

theorem isNamePart_iff : isNamePart c ↔ c.isAlphanum ∨ c = '_' := by simp [isNamePart]

theorem isName_take (h : 0 < name cs) : IsName (cs.take (name cs)) := by
  cases cs with
  | nil => simp [name] at h
  | cons c cs =>
    have hstart := isNameStart_of_name h
    rw [name_cons, if_pos hstart, Nat.add_comm, List.take_succ_cons]
    refine .word (by simpa [isNameStart] using hstart) ?_
    intro d hd
    exact isNamePart_iff.mp (run_forall d hd)

theorem IsName.taken (h : IsName cs) (tail : List Char) : cs.length ≤ name (cs ++ tail) := by
  obtain ⟨hfirst, hrest⟩ := h
  next c cs =>
  have hstart : isNameStart c := by simpa [isNameStart] using hfirst
  have hparts : ∀ d ∈ cs, isNamePart d := fun d hd => isNamePart_iff.mpr (hrest d hd)
  rw [List.cons_append, name_cons, if_pos hstart, run_append hparts, List.length_cons]
  omega

theorem IsName.pos (h : IsName cs) : 0 < cs.length := by
  cases h
  simp

theorem class_special (h : 0 < specialName cs) :
    Class .specialIdentifier (cs.take (specialName cs)) := by
  cases cs with
  | nil => simp [specialName] at h
  | cons c cs =>
    by_cases hc : c = '$'
    · subst hc
      rw [specialName_dollar] at h ⊢
      split at h
      · omega
      · next hname =>
        rw [if_neg hname, Nat.add_comm, List.take_succ_cons]
        exact .special (isName_take (Nat.pos_of_ne_zero hname))
    · rw [specialName_of_ne hc] at h
      omega

end Words

section Punctuation

theorem class_punct (h : 0 < punct cs) : Class .punct (cs.take (punct cs)) := by
  cases cs with
  | nil => simp [punct] at h
  | cons c cs =>
    have hopen := not_open_of_punct h
    rw [punct_cons hopen] at h ⊢
    split at h
    · next hpair =>
      rw [if_pos hpair]
      exact .pair hpair
    · next hpair =>
      split at h
      · next hsingle =>
        rw [if_neg hpair, if_pos hsingle]
        exact .single hsingle
      · omega

/-- The longer punctuation is looked for first. -/
theorem pair_taken (h : cs ∈ pairs) (hpos : 0 < punct (cs ++ tail)) :
    cs.length ≤ punct (cs ++ tail) := by
  have hlength := pairs_length h
  match cs, hlength with
  | [a, b], _ =>
    rw [List.cons_append] at hpos ⊢
    rw [punct_cons (not_open_of_punct hpos), if_pos (by simpa using h)]
    simp

end Punctuation

/-- What a rule takes is of the class of its kind. -/
theorem Scans.class (h : Scans cs kind n) (hcomment : kind ≠ .comment) (hstring : kind ≠ .string) :
    Class kind (cs.take n) := by
  cases h with
  | whitespace hpos =>
    refine .blanks ?_ ?_
    · have hle := run_le (p := isBlank) cs
      intro hnil
      have hlength := congrArg List.length hnil
      rw [blanks, List.length_take_of_le hle, List.length_nil] at hlength
      rw [blanks] at hpos
      omega
    · intro c hc
      simpa using isBlank_cases (run_forall c hc)
  | comment => exact absurd rfl hcomment
  | number _ _ hpos => exact class_number hpos
  | string => exact absurd rfl hstring
  | special _ _ _ _ hpos => exact class_special hpos
  | keyword _ _ _ _ _ hpos =>
    have hname := name_of_keyword hpos
    rw [← hname] at hpos ⊢
    exact .keyword (isName_take hpos)
  | identifier _ _ _ _ _ _ hpos => exact .identifier (isName_take hpos)
  | punct _ _ _ _ _ _ _ hpos => exact class_punct hpos

/-- No text of the class goes further than what a rule takes. -/
theorem Scans.longest (h : Scans (cs ++ tail) kind n) (hclass : Class kind cs) :
    cs.length ≤ n := by
  have hpos := scans_pos h
  cases h with
  | whitespace =>
    cases hclass with
    | blanks _ hblanks =>
      have hall : ∀ c ∈ cs, isBlank c := by
        intro c hc
        simpa [isBlank, or_assoc] using hblanks c hc
      rw [blanks, run_append hall]
      exact Nat.le_add_right _ _
  | comment => cases hclass
  | number => exact number_longest hclass tail
  | string => cases hclass
  | special =>
    cases hclass with
    | @special cs hname =>
      have htaken := hname.taken tail
      have hsome := hname.pos
      rw [List.cons_append, specialName_dollar, if_neg (by omega), List.length_cons]
      omega
  | keyword =>
    cases hclass with
    | keyword hname =>
      rw [← name_of_keyword hpos]
      exact hname.taken tail
  | identifier =>
    cases hclass with
    | identifier hname => exact hname.taken tail
  | punct =>
    cases hclass with
    | pair hpair => exact pair_taken hpair hpos
    | single => exact hpos

theorem Scans.keywords (h : Scans cs kind n) :
    (kind = .keyword → String.ofList (cs.take n) ∈ Lexical.keywords) ∧
      (kind = .identifier → String.ofList (cs.take n) ∉ Lexical.keywords) := by
  cases h with
  | keyword _ _ _ _ _ hpos =>
    refine ⟨fun _ => ?_, nofun⟩
    unfold Lexical.keyword at hpos ⊢
    split at hpos
    · next hmem => rwa [if_pos hmem]
    · omega
  | identifier _ _ _ _ _ hkeyword hpos =>
    refine ⟨nofun, fun _ hmem => ?_⟩
    rw [Lexical.keyword, if_pos hmem] at hkeyword
    omega
  | _ => constructor <;> intro hkind <;> cases hkind

end Lexical

open Lexical

/-- Every token that is neither a comment nor a string is the longest text of its class that stands
where it begins, and a name is a keyword exactly if the language keeps it for itself. -/
theorem token_longest {source : String} {tokens : List Token} {t : Token}
    (h : tokenize source = .ok tokens) (ht : t ∈ tokens) (hcomment : t.kind ≠ .comment)
    (hstring : t.kind ≠ .string) :
    ∃ before after, source = before ++ (t.text ++ after) ∧ t.offset = before.utf8ByteSize ∧
      Class t.kind t.text.toList ∧
      (∀ longer rest, t.text ++ after = longer ++ rest → Class t.kind longer.toList →
        longer.length ≤ t.text.length) ∧
      (t.kind = .keyword → t.text ∈ keywords) ∧ (t.kind = .identifier → t.text ∉ keywords) := by
  obtain ⟨before, after, hsource, ⟨_, hspan⟩, hscan⟩ := scans_of_token h ht
  have htake : (t.text ++ after).toList.take t.text.toList.length = t.text.toList := by
    rw [String.toList_append, List.take_left]
  have hclass := hscan.class hcomment hstring
  have hkeywords := hscan.keywords
  rw [htake] at hclass hkeywords
  rw [String.ofList_toList] at hkeywords
  refine ⟨before, after, hsource, congrArg Span.start hspan, hclass, ?_, hkeywords⟩
  intro longer rest hsame hlonger
  rw [hsame, String.toList_append] at hscan
  have hlongest := hscan.longest hlonger
  rwa [String.length_toList, String.length_toList] at hlongest

/-- The second point begins a numeral of its own, and the letter behind it is no exponent. -/
theorem token_longest_points :
    ∃ tokens t, tokenize "x=1..5e-;" = .ok tokens ∧ t ∈ tokens ∧ t.kind = .number ∧ t.text = ".5" ∧
      ∃ before after, "x=1..5e-;" = before ++ (".5" ++ after) ∧ before.utf8ByteSize = 4 ∧
        Class .number ".5".toList ∧
        ∀ longer rest, ".5" ++ after = longer ++ rest → Class .number longer.toList →
          longer.length ≤ 2 := by
  have hpoint : ∃ t ∈ emitted "x=1..5e-;", t.kind = .number ∧ t.text = ".5" ∧ t.offset = 4 := by
    decide +kernel
  obtain ⟨t, hmem, hkind, htext, hoffset⟩ := hpoint
  have htokens : tokenize "x=1..5e-;" = .ok (emitted "x=1..5e-;") := rfl
  obtain ⟨before, after, hsource, hbefore, hclass, hlongest, _⟩ :=
    token_longest htokens hmem (by simp [hkind]) (by simp [hkind])
  rw [hkind] at hclass hlongest
  rw [htext] at hsource hclass hlongest
  exact ⟨_, t, htokens, hmem, hkind, htext, before, after, hsource, hbefore.symm.trans hoffset,
    hclass, hlongest⟩

end SolidScript
