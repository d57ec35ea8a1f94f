import SolidScript.Proofs.Token.Comment

namespace SolidScript.Lexical

variable {cs tail : List Char} {c : Char} {kind : TokenKind} {n m : Nat}

private theorem findSome?_rule (kind : TokenKind) (rule : List Char → Nat)
    (others : List (TokenKind × (List Char → Nat))) (cs : List Char) :
    ((kind, rule) :: others).findSome? (fun r => if 0 < r.2 cs then some (r.1, r.2 cs) else none) =
      if 0 < rule cs then some (kind, rule cs)
      else others.findSome? fun r => if 0 < r.2 cs then some (r.1, r.2 cs) else none := by
  rw [List.findSome?_cons]
  by_cases h : 0 < rule cs
  · simp only [h, if_true]
  · simp only [h, if_false]

theorem scan_eq (cs : List Char) :
    scan cs =
      if 0 < blanks cs then some (.whitespace, blanks cs)
      else if 0 < comment cs then some (.comment, comment cs)
      else if 0 < number cs then some (.number, number cs)
      else if 0 < quoted cs then some (.string, quoted cs)
      else if 0 < specialName cs then some (.specialIdentifier, specialName cs)
      else if 0 < keyword cs then some (.keyword, keyword cs)
      else if 0 < name cs then some (.identifier, name cs)
      else if 0 < punct cs then some (.punct, punct cs)
      else none := by
  change rules.findSome? (fun r => if 0 < r.2 cs then some (r.1, r.2 cs) else none) = _
  simp only [rules, findSome?_rule, List.findSome?_nil]

/-- The rule for the kind takes `n` characters, and none of the rules before it takes any. -/
inductive Scans (cs : List Char) : TokenKind → Nat → Prop
  | whitespace (hpos : 0 < blanks cs) : Scans cs .whitespace (blanks cs)
  | comment (hblanks : blanks cs = 0) (hpos : 0 < comment cs) : Scans cs .comment (comment cs)
  | number (hblanks : blanks cs = 0) (hcomment : comment cs = 0) (hpos : 0 < number cs) :
    Scans cs .number (number cs)
  | string (hblanks : blanks cs = 0) (hcomment : comment cs = 0) (hnumber : number cs = 0)
    (hpos : 0 < quoted cs) : Scans cs .string (quoted cs)
  | special (hblanks : blanks cs = 0) (hcomment : comment cs = 0) (hnumber : number cs = 0)
    (hquoted : quoted cs = 0) (hpos : 0 < specialName cs) :
    Scans cs .specialIdentifier (specialName cs)
  | keyword (hblanks : blanks cs = 0) (hcomment : comment cs = 0) (hnumber : number cs = 0)
    (hquoted : quoted cs = 0) (hspecial : specialName cs = 0) (hpos : 0 < keyword cs) :
    Scans cs .keyword (keyword cs)
  | identifier (hblanks : blanks cs = 0) (hcomment : comment cs = 0) (hnumber : number cs = 0)
    (hquoted : quoted cs = 0) (hspecial : specialName cs = 0) (hkeyword : keyword cs = 0)
    (hpos : 0 < name cs) : Scans cs .identifier (name cs)
  | punct (hblanks : blanks cs = 0) (hcomment : comment cs = 0) (hnumber : number cs = 0)
    (hquoted : quoted cs = 0) (hspecial : specialName cs = 0) (hkeyword : keyword cs = 0)
    (hname : name cs = 0) (hpos : 0 < punct cs) : Scans cs .punct (punct cs)

theorem scan_eq_some_iff : scan cs = some (kind, n) ↔ Scans cs kind n := by
  rw [scan_eq]
  constructor
  · intro h
    iterate 8
      split at h
      · obtain ⟨rfl, rfl⟩ := Prod.mk.inj (Option.some.inj h)
        constructor <;> omega
    cases h
  · intro h
    cases h <;> simp_all

theorem scans_pos (h : Scans cs kind n) : 0 < n := by
  cases h <;> assumption

theorem keyword_le (cs : List Char) : keyword cs ≤ cs.length := by
  have hle := name_le cs
  unfold Lexical.keyword
  split <;> omega

theorem scans_le (h : Scans cs kind n) : n ≤ cs.length := by
  cases h with
  | whitespace => exact run_le cs
  | comment => exact comment_le cs
  | number => exact number_le cs
  | string => exact quoted_le cs
  | special => exact specialName_le cs
  | keyword => exact keyword_le cs
  | identifier => exact name_le cs
  | punct => exact punct_le cs

section First

theorem blanks_of_not_blank (hc : isBlank c = false) : blanks (c :: cs) = 0 := by
  rw [blanks, run_cons, if_neg (by simp [hc])]

theorem blanks_cons (hc : isBlank c) : blanks (c :: cs) = 1 + blanks cs := by
  rw [blanks, run_cons, if_pos hc, blanks]

theorem number_of_not_numeric (hdigit : c.isDigit = false) (hpoint : c ≠ '.') :
    number (c :: cs) = 0 := by
  have hrun : run Char.isDigit (c :: cs) = 0 := by rw [run_cons, if_neg (by simp [hdigit])]
  have hmantissa : mantissa (c :: cs) = 0 := by
    rw [mantissa_of_not_point, hrun]
    simpa [hrun] using hpoint
  simp [number, hmantissa]

theorem quoted_of_ne (hc : c ≠ '"') : quoted (c :: cs) = 0 := by
  unfold quoted
  split
  · next heq => exact absurd (List.cons.inj heq).1 hc
  · rfl

theorem name_of_not_start (hc : isNameStart c = false) : name (c :: cs) = 0 := by
  rw [name_cons, if_neg (by simp [hc])]

theorem keyword_of_name (h : name cs = 0) : keyword cs = 0 := by
  rw [keyword, h, ite_self]

theorem isBlank_of_blanks (h : blanks (c :: cs) = 0) : isBlank c = false := by
  refine Bool.eq_false_iff.mpr fun hc => ?_
  rw [blanks_cons hc] at h
  omega

/-- What stands behind a character that opens no comment may be cut off. -/
theorem comment_take_append (h : comment (c :: cs) = 0) (hopen : c = '/' → cs.head? ≠ some '*')
    (htail : Gap tail) : comment (c :: (cs.take n ++ tail)) = 0 := by
  refine comment_of_not_open fun hc =>
    ⟨htail.head_take_ne rfl ?_, htail.head_take_ne rfl (hopen hc)⟩
  intro hhead
  obtain ⟨rest, rfl⟩ := List.head?_eq_some_iff.mp hhead
  rw [hc, comment_line] at h
  omega

theorem punct_quote (cs : List Char) : punct ('"' :: cs) = 0 := by
  have hsingle : '"' ∉ singles := by decide
  rw [punct_cons fun heq => absurd heq (by decide), if_neg (by simp [pairs]), if_neg hsingle]

theorem not_open_of_punct (h : 0 < punct (c :: cs)) : c = '/' → cs.head? ≠ some '*' := by
  rintro rfl hhead
  obtain ⟨rest, rfl⟩ := List.head?_eq_some_iff.mp hhead
  rw [punct_comment] at h
  omega

theorem name_of_keyword (h : 0 < keyword cs) : name cs = keyword cs := by
  unfold keyword at h ⊢
  split at h
  · next hmem => rw [if_pos hmem]
  · omega

theorem isNameStart_of_name (h : 0 < name (c :: cs)) : isNameStart c := by
  refine Classical.byContradiction fun hc => ?_
  rw [name_of_not_start (by simpa using hc)] at h
  omega

theorem ne_of_nameStart {d : Char} (hc : isNameStart c) (hd : isNameStart d = false) : c ≠ d := by
  rintro rfl
  rw [hc] at hd
  cases hd

end First

/-- A lexeme that is neither blank nor a comment is scanned again from the front of any text that
goes on with a blank behind it, or does not go on. -/
theorem scans_take_append (h : Scans cs kind n) (hspace : kind ≠ .whitespace)
    (hcomment : kind ≠ .comment) (htail : Gap tail) (hm : n ≤ m) :
    Scans (cs.take m ++ tail) kind n := by
  have hpos := scans_pos h
  have hle := scans_le h
  obtain ⟨c, cs, rfl⟩ := List.exists_cons_of_length_pos (Nat.lt_of_lt_of_le hpos hle)
  obtain ⟨k, rfl⟩ : ∃ k, m = k + 1 := ⟨m - 1, by omega⟩
  have hblanks (h : blanks (c :: cs) = 0) : blanks ((c :: cs).take (k + 1) ++ tail) = 0 :=
    blanks_of_not_blank (isBlank_of_blanks h)
  have hplain (hzero : comment (c :: cs) = 0) (hc : c ≠ '/') :
      comment ((c :: cs).take (k + 1) ++ tail) = 0 :=
    comment_take_append hzero (fun heq => absurd heq hc) htail
  have hnumber (hzero : number (c :: cs) = 0) : number ((c :: cs).take (k + 1) ++ tail) = 0 := by
    rw [number_take_append htail (by omega), hzero]
  have hspecial (hzero : specialName (c :: cs) = 0) :
      specialName ((c :: cs).take (k + 1) ++ tail) = 0 := by
    rw [specialName_take_append htail (by omega), hzero]
  cases h with
  | whitespace => exact absurd rfl hspace
  | comment => exact absurd rfl hcomment
  | number hb hc hpos =>
    have hslash : c ≠ '/' := by
      rintro rfl
      rw [number_of_not_numeric rfl (by decide)] at hpos
      omega
    have hsame := number_take_append htail hm
    rw [← hsame] at hpos ⊢
    exact .number (hblanks hb) (hplain hc hslash) hpos
  | string hb hc hn hpos =>
    have hslash : c ≠ '/' := by
      rintro rfl
      rw [quoted_of_ne (by decide)] at hpos
      omega
    have hsame : quoted ((c :: cs).take (k + 1) ++ tail) = quoted (c :: cs) :=
      quoted_take_append hpos hm
    rw [← hsame] at hpos ⊢
    exact .string (hblanks hb) (hplain hc hslash) (hnumber hn) hpos
  | special hb hc hn hq hpos =>
    have hdollar : c = '$' := by
      refine Classical.byContradiction fun hne => ?_
      rw [specialName_of_ne hne] at hpos
      omega
    have hsame := specialName_take_append htail hm
    rw [← hsame] at hpos ⊢
    exact .special (hblanks hb) (hplain hc (by rw [hdollar]; decide)) (hnumber hn)
      (quoted_of_ne (by rw [hdollar]; decide)) hpos
  | keyword hb hc hn hq hs hpos =>
    have hname := name_of_keyword hpos
    have hstart := isNameStart_of_name (hname ▸ hpos)
    have hsame := keyword_take_append htail (hname ▸ hm)
    rw [← hsame] at hpos ⊢
    exact .keyword (hblanks hb) (hplain hc (ne_of_nameStart hstart rfl)) (hnumber hn)
      (quoted_of_ne (ne_of_nameStart hstart rfl)) (hspecial hs) hpos
  | identifier hb hc hn hq hs hk hpos =>
    have hstart := isNameStart_of_name hpos
    have hkeyword := keyword_take_append htail hm
    have hsame := name_take_append htail hm
    rw [← hsame] at hpos ⊢
    exact .identifier (hblanks hb) (hplain hc (ne_of_nameStart hstart rfl)) (hnumber hn)
      (quoted_of_ne (ne_of_nameStart hstart rfl)) (hspecial hs) (by rw [hkeyword, hk]) hpos
  | punct hb hc hn hq hs hk hname hpos =>
    have hquote : c ≠ '"' := by
      rintro rfl
      rw [punct_quote] at hpos
      omega
    have hsame := punct_take_append htail hpos hm
    have hopen := comment_take_append (n := k) hc (not_open_of_punct hpos) htail
    have hnone := name_take_append htail (n := k + 1) (by omega : name (c :: cs) ≤ k + 1)
    rw [hname] at hnone
    rw [← hsame] at hpos ⊢
    exact .punct (hblanks hb) hopen (hnumber hn) (quoted_of_ne hquote) (hspecial hs)
      (keyword_of_name hnone) hnone hpos

section Blanks

theorem blanks_append_of_lt (h : blanks cs < cs.length) : blanks (cs ++ tail) = blanks cs := by
  unfold blanks run at h ⊢
  rw [List.takeWhile_append, if_neg (by omega)]

theorem scans_blank (hc : isBlank c) : Scans (c :: cs) .whitespace (1 + blanks cs) := by
  rw [← blanks_cons hc]
  refine .whitespace ?_
  rw [blanks_cons hc]
  omega

theorem blanks_of_scans (h : Scans cs .whitespace n) : n = blanks cs := by
  cases h
  rfl

theorem blanks_of_significant (h : Scans cs kind n) (hspace : kind ≠ .whitespace) :
    blanks cs = 0 := by
  cases h with
  | whitespace => exact absurd rfl hspace
  | _ => assumption

end Blanks

/-- What is scanned stays the same if the text goes on behind a line break, unless it is blanks up
to the end. In the text so far no opening mark may be directly followed by a slash. -/
theorem scans_append (h : Scans cs kind n) (hno : ¬['/', '*', '/'] <:+: cs)
    (htail : ∀ c ∈ tail.head?, isBreak c) (hspace : kind = .whitespace → n < cs.length) :
    Scans (cs ++ tail) kind n := by
  have hgap : Gap tail := fun c hc => by
    have hbreak := htail c hc
    simp only [isBreak, Bool.or_eq_true, decide_eq_true_eq] at hbreak
    obtain rfl | rfl := hbreak <;> rfl
  have hle := scans_le h
  by_cases hwhite : kind = .whitespace
  · subst hwhite
    have hsame := blanks_of_scans h
    have hpos := scans_pos h
    have hmore : blanks (cs ++ tail) = blanks cs := blanks_append_of_lt (hsame ▸ hspace rfl)
    rw [hsame, ← hmore] at hpos ⊢
    exact .whitespace hpos
  · by_cases hcomment : kind = .comment
    · subst hcomment
      cases h with
      | comment hblanks hpos =>
        have hmore := comment_append hpos hno htail
        have hfirst : blanks (cs ++ tail) = 0 := by
          rw [blanks_append_of_lt (by omega), hblanks]
        rw [← hmore] at hpos ⊢
        exact .comment hfirst hpos
    · have hwhole := scans_take_append h hwhite hcomment hgap hle
      rwa [List.take_length] at hwhole

/-- What is scanned stays the same if the text is cut off behind it. -/
theorem scans_take (h : Scans cs kind n) (hm : n ≤ m)
    (hfirm : Lexeme.Firm ⟨kind, String.ofList (cs.take n)⟩) : Scans (cs.take m) kind n := by
  have hblanks : blanks (cs.take m) = min m (blanks cs) := by
    have hrun : run isBlank (cs.take m ++ []) = min m (run isBlank cs) := run_take_append nofun
    rwa [List.append_nil] at hrun
  by_cases hwhite : kind = .whitespace
  · subst hwhite
    have hpos := scans_pos h
    have hsame : n = blanks (cs.take m) := by
      rw [hblanks, ← blanks_of_scans h, Nat.min_eq_right hm]
    rw [hsame] at hpos ⊢
    exact .whitespace hpos
  · by_cases hcomment : kind = .comment
    · subst hcomment
      cases h with
      | comment hnone hpos =>
        have hsame := comment_take hpos hm fun inner hinner =>
          hfirm rfl inner (by rw [String.toList_ofList, hinner])
        rw [← hsame] at hpos ⊢
        exact .comment (by rw [hblanks, hnone, Nat.min_zero]) hpos
    · have hless : Scans (cs.take m ++ []) kind n := scans_take_append h hwhite hcomment nofun hm
      rwa [List.append_nil] at hless

end SolidScript.Lexical
