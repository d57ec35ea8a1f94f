import SolidScript.Proofs.Token.Emission

namespace SolidScript

namespace Lexical

variable {cs : List Char} {c : Char} {n k : Nat}

/-- Counts the depth of comments from left to right, starting from `depth`: an opening mark adds one
and a closing mark takes one away. Gives the number of characters up to where the depth first comes
back to zero. -/
def depthScan (depth : Nat) : List Char → Option Nat
  | [] => none
  | '/' :: '*' :: cs => (depthScan (depth + 1) cs).map (2 + ·)
  | '*' :: '/' :: cs => if depth = 1 then some 2 else (depthScan (depth - 1) cs).map (2 + ·)
  | _ :: cs => (depthScan depth cs).map (1 + ·)

theorem depthScan_open (depth : Nat) (cs : List Char) :
    depthScan depth ('/' :: '*' :: cs) = (depthScan (depth + 1) cs).map (2 + ·) := by
  simp [depthScan]

theorem depthScan_close (depth : Nat) (cs : List Char) :
    depthScan depth ('*' :: '/' :: cs) =
      if depth = 1 then some 2 else (depthScan (depth - 1) cs).map (2 + ·) := by
  simp [depthScan]

theorem depthScan_plain (depth : Nat) (h : Plain c cs) :
    depthScan depth (c :: cs) = (depthScan depth cs).map (1 + ·) := by
  rw [depthScan]
  · rintro rest rfl rfl
    exact h.2 rfl rfl
  · rintro rest rfl rfl
    exact h.1 rfl rfl

/-- The text begins with the inside of a comment and its closing mark, and every comment that is
opened inside closes inside. -/
inductive Closes : List Char → Nat → Prop
  | close (cs : List Char) : Closes ('*' :: '/' :: cs) 2
  | nested {cs : List Char} {j k : Nat} (inner : Closes cs j) (outer : Closes (cs.drop j) k) :
    Closes ('/' :: '*' :: cs) (2 + j + k)
  | plain {c : Char} {cs : List Char} {k : Nat} (hplain : Plain c cs) (rest : Closes cs k) :
    Closes (c :: cs) (1 + k)

/-- Behind the inside of a comment the count is one lower, and goes on from there. -/
theorem Closes.depthScan (h : Closes cs k) (depth : Nat) :
    depthScan (depth + 1) cs =
      if depth = 0 then some k else (Lexical.depthScan depth (cs.drop k)).map (k + ·) := by
  induction h generalizing depth with
  | close cs =>
    rw [depthScan_close]
    simp
  | @nested cs j k _ _ ihInner ihOuter =>
    have hdrop : ('/' :: '*' :: cs).drop (2 + j + k) = (cs.drop j).drop k := by
      rw [Nat.add_assoc, Nat.add_comm, List.drop_succ_cons, List.drop_succ_cons, List.drop_drop]
    rw [depthScan_open, ihInner, if_neg (Nat.succ_ne_zero depth), ihOuter, hdrop]
    split
    · simp [Nat.add_assoc]
    · simp [Function.comp_def, Nat.add_assoc]
  | @plain c cs k hplain _ ih =>
    rw [depthScan_plain _ hplain, ih, Nat.add_comm 1 k, List.drop_succ_cons]
    split
    · simp [Nat.add_comm]
    · rw [Option.map_map]
      apply congrArg (Option.map · _)
      funext m
      rw [Function.comp_apply]
      omega

/-- If the count comes down at all, it comes down behind the inside of a comment. -/
theorem exists_closes {depth : Nat} (h : depthScan (depth + 1) cs = some n) :
    ∃ k, Closes cs k := by
  induction hlen : cs.length using Nat.strongRecOn generalizing cs depth n with
  | _ size ih =>
    cases cs with
    | nil => simp [depthScan] at h
    | cons c cs =>
      rw [List.length_cons] at hlen
      obtain ⟨rest, heq⟩ | ⟨rest, heq⟩ | hplain := plain_cases c cs
      · rw [heq]
        exact ⟨2, .close rest⟩
      · obtain ⟨rfl, rfl⟩ := List.cons.inj heq
        rw [List.length_cons] at hlen
        rw [depthScan_open] at h
        obtain ⟨m, hm, _⟩ := Option.map_eq_some_iff.mp h
        obtain ⟨j, hinner⟩ := ih rest.length (by omega) hm rfl
        rw [hinner.depthScan, if_neg (Nat.succ_ne_zero depth)] at hm
        obtain ⟨l, hl, _⟩ := Option.map_eq_some_iff.mp hm
        obtain ⟨k, houter⟩ := ih (rest.drop j).length (by rw [List.length_drop]; omega) hl rfl
        exact ⟨2 + j + k, .nested hinner houter⟩
      · rw [depthScan_plain _ hplain] at h
        obtain ⟨m, hm, _⟩ := Option.map_eq_some_iff.mp h
        obtain ⟨k, hrest⟩ := ih cs.length (by omega) hm rfl
        exact ⟨1 + k, .plain hplain hrest⟩

theorem depthScan_eq_some_iff : depthScan 1 cs = some n ↔ Closes cs n := by
  constructor
  · intro h
    obtain ⟨k, hk⟩ := exists_closes h
    have hsame := hk.depthScan 0
    rw [h, if_pos rfl] at hsame
    rwa [Option.some.inj hsame]
  · intro h
    rw [h.depthScan 0, if_pos rfl]

/-- Where all comments close, no opening mark is taken as two plain characters. -/
theorem Closes.commentBody (h : Closes cs n) : commentBody cs = some n := by
  induction h with
  | close cs => exact commentBody_close cs
  | nested _ _ ihInner ihOuter => simp [commentBody_open, ihInner, ihOuter]
  | plain hplain _ ih => simp [commentBody_plain hplain, ih]

/-- All comments close, unless an opening mark is directly followed by a slash. -/
theorem closes_of_commentBody (h : Lexical.commentBody cs = some n)
    (hno : ¬['/', '*', '/'] <:+: cs) : Closes cs n := by
  refine commentBody_induction (P := fun cs n => ¬['/', '*', '/'] <:+: cs → Closes cs n)
    ?_ ?_ ?_ ?_ h hno
  · intro cs _
    exact .close cs
  · intro cs j k _ hinner _ houter hno
    have hrest : ¬['/', '*', '/'] <:+: cs := fun hin =>
      hno (hin.trans ⟨['/', '*'], [], by simp⟩)
    have hbehind : ¬['/', '*', '/'] <:+: cs.drop j := fun hin =>
      hrest (hin.trans (List.drop_suffix j cs).isInfix)
    exact .nested (hinner hrest) (houter hbehind)
  · intro cs _ hno
    exact absurd ⟨[], cs, rfl⟩ hno
  · intro c cs k hplain _ ih hno
    exact .plain hplain (ih fun hin => hno (hin.trans ⟨[c], [], by simp⟩))

theorem scans_comment (h : Lexical.commentBody cs = some n) :
    Scans ('/' :: '*' :: cs) .comment (2 + n) := by
  have hcomment : comment ('/' :: '*' :: cs) = 2 + n := by simp [comment_block, h]
  rw [← hcomment]
  refine .comment (blanks_of_not_blank (by decide)) ?_
  rw [hcomment]
  omega

/-- The opening mark of a comment that does not close is nothing else: no other rule takes it. -/
theorem scan_open (h : Lexical.commentBody cs = none) : scan ('/' :: '*' :: cs) = none := by
  have hname : name ('/' :: '*' :: cs) = 0 := name_of_not_start (by decide)
  rw [scan_eq, blanks_of_not_blank (by decide), comment_block, h,
    number_of_not_numeric (by decide) (by decide), quoted_of_ne (by decide),
    specialName_of_ne (by decide), keyword_of_name hname, hname, punct_comment]
  simp

end Lexical

open Lexical

theorem length_le_byteLength (cs : List Char) : cs.length ≤ byteLength cs := by
  induction cs with
  | nil => simp
  | cons c cs ih =>
    have hpos := c.utf8Size_pos
    rw [List.length_cons, byteLength_cons]
    omega

section Comments

variable {before inner : String}

theorem Reaches.comment {n : Nat} (h : Reaches (before ++ ("/*" ++ inner)) before)
    (hbody : commentBody inner.toList = some n) :
    ∃ comment rest, "/*" ++ inner = comment ++ rest ∧ comment.toList.length = 2 + n ∧
      Emits (before ++ ("/*" ++ inner)) before .comment comment := by
  have htext : ("/*" ++ inner).toList = '/' :: '*' :: inner.toList := by simp
  have hle := commentBody_le hbody
  have hsplit : "/*" ++ inner =
      String.ofList ('/' :: '*' :: inner.toList.take n) ++ String.ofList (inner.toList.drop n) := by
    apply String.toList_injective
    simp
  have hlength : ('/' :: '*' :: inner.toList.take n).length = 2 + n := by
    rw [List.length_cons, List.length_cons, List.length_take_of_le hle]
    omega
  refine ⟨_, _, hsplit, by rw [String.toList_ofList, hlength], ?_⟩
  rw [hsplit] at h ⊢
  apply h.emits
  rw [← hsplit, htext, String.toList_ofList, hlength]
  exact scans_comment hbody

theorem Reaches.unterminated (h : Reaches (before ++ ("/*" ++ inner)) before)
    (hbody : commentBody inner.toList = none) :
    Faults (before ++ ("/*" ++ inner)) before .unterminatedComment := by
  have htext : ("/*" ++ inner).toList = '/' :: '*' :: inner.toList := by simp
  exact h.faults htext (scan_open hbody)

/-- A block comment goes up to where the count of its depth comes back to zero. If the count never
does and no opening mark is directly followed by a slash, the comment is reported as one that does
not end. In any case there is one or the other where the comment begins, and neither character of
its opening mark belongs to any other token. -/
theorem comment_depth (h : Reaches (before ++ ("/*" ++ inner)) before) :
    (∀ n, depthScan 0 ("/*" ++ inner).toList = some n →
        ∃ comment rest, "/*" ++ inner = comment ++ rest ∧ comment.toList.length = n ∧
          Emits (before ++ ("/*" ++ inner)) before .comment comment) ∧
      (depthScan 0 ("/*" ++ inner).toList = none →
        ¬['/', '*', '/'] <:+: ("/*" ++ inner).toList →
        Faults (before ++ ("/*" ++ inner)) before .unterminatedComment) ∧
      ((∃ comment, Emits (before ++ ("/*" ++ inner)) before .comment comment) ∨
        Faults (before ++ ("/*" ++ inner)) before .unterminatedComment) ∧
      ∀ t ∈ emitted (before ++ ("/*" ++ inner)), before.utf8ByteSize < t.stop →
        t.offset < before.utf8ByteSize + 2 →
        t.kind = .comment ∧ t.offset = before.utf8ByteSize := by
  have htext : ("/*" ++ inner).toList = '/' :: '*' :: inner.toList := by simp
  rw [htext, depthScan_open]
  refine ⟨?_, ?_, ?_, ?_⟩
  · intro n hn
    obtain ⟨k, hk, rfl⟩ := Option.map_eq_some_iff.mp hn
    exact h.comment (depthScan_eq_some_iff.mp hk).commentBody
  · intro hnone hno
    apply h.unterminated
    by_contra hbody
    obtain ⟨k, hk⟩ := Option.ne_none_iff_exists'.mp hbody
    have hcloses := closes_of_commentBody hk fun hin => hno (hin.trans ⟨['/', '*'], [], by simp⟩)
    rw [depthScan_eq_some_iff.mpr hcloses] at hnone
    cases hnone
  · cases hbody : commentBody inner.toList with
    | none => exact .inr (h.unterminated hbody)
    | some k =>
      obtain ⟨comment, _, _, _, hemits⟩ := h.comment hbody
      exact .inl ⟨comment, hemits⟩
  · intro t ht hstop hoffset
    cases hbody : commentBody inner.toList with
    | none =>
      obtain ⟨e, herror, _, hplace⟩ := h.unterminated hbody
      have hbefore := emitted_before_fault herror ht
      omega
    | some k =>
      obtain ⟨comment, _, _, hlength, u, hu, hkind, _, hspan⟩ := h.comment hbody
      have hstart : u.offset = before.utf8ByteSize := congrArg Span.start hspan
      have hend : u.stop = before.utf8ByteSize + comment.utf8ByteSize := by
        rw [← String.utf8ByteSize_append]
        exact congrArg Span.stop hspan
      have hbytes := length_le_byteLength comment.toList
      rw [byteLength_toList] at hbytes
      have hsame := emitted_overlap ht hu (by omega) (by omega)
      rw [hsame]
      exact ⟨hkind, hstart⟩

/-- A comment with another one inside is one token. Where only the inner one closes, the outer one
does not end. -/
theorem comment_depth_nested :
    Emits "x /* a /* b */ c */ y" "x " .comment "/* a /* b */ c */" ∧
      Faults "x = 1; /* a /* b */" "x = 1; " .unterminatedComment := by
  have hnested : Reaches ("x " ++ ("/*" ++ " a /* b */ c */ y")) "x " :=
    ⟨_, List.take_prefix 2 _, by decide +kernel⟩
  have hopen : Reaches ("x = 1; " ++ ("/*" ++ " a /* b */")) "x = 1; " :=
    ⟨_, List.take_prefix 7 _, by decide +kernel⟩
  obtain ⟨comment, rest, hsplit, hlength, hemits⟩ :=
    (comment_depth hnested).1 17 (by decide +kernel)
  have htext : comment = "/* a /* b */ c */" := by
    have hends : "/*" ++ " a /* b */ c */ y" = "/* a /* b */ c */" ++ " y" := by decide +kernel
    have hchars := congrArg String.toList (hsplit.symm.trans hends)
    rw [String.toList_append, String.toList_append] at hchars
    exact String.toList_injective (List.append_inj_left hchars hlength)
  exact ⟨htext ▸ hemits, (comment_depth hopen).2.1 (by decide +kernel) (by decide +kernel)⟩

end Comments

end SolidScript
