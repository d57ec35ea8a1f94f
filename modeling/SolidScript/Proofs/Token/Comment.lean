import SolidScript.Proofs.Token.Rules

namespace SolidScript

/-- In a block comment no opening mark but its own is directly followed by a slash. -/
def Lexeme.Firm (l : Lexeme) : Prop :=
  l.kind = .comment → ∀ inner, l.text.toList = '/' :: '*' :: inner → ¬['/', '*', '/'] <:+: inner

namespace Lexical

variable {cs tail : List Char} {c : Char} {n : Nat}

theorem commentBodies_eq (cs : List Char) (n : Nat) :
    (commentBodies cs)[n]?.join = commentBody (cs.drop n) := by
  induction cs generalizing n with
  | nil => cases n <;> simp [commentBody, commentBodies]
  | cons c cs ih =>
    cases n with
    | zero => simp [commentBody, List.head?_eq_getElem?]
    | succ n =>
      rw [List.drop_succ_cons, ← ih]
      rfl

/-- Neither mark of a comment begins with the character and what comes behind it. -/
def Plain (c : Char) (cs : List Char) : Prop :=
  (c = '*' → cs.head? ≠ some '/') ∧ (c = '/' → cs.head? ≠ some '*')

theorem plain_cases (c : Char) (cs : List Char) :
    (∃ rest, c :: cs = '*' :: '/' :: rest) ∨ (∃ rest, c :: cs = '/' :: '*' :: rest) ∨
      Plain c cs := by
  cases cs with
  | nil => exact .inr (.inr ⟨fun _ => nofun, fun _ => nofun⟩)
  | cons d cs =>
    by_cases hclose : c = '*' ∧ d = '/'
    · obtain ⟨rfl, rfl⟩ := hclose
      exact .inl ⟨cs, rfl⟩
    · by_cases hopen : c = '/' ∧ d = '*'
      · obtain ⟨rfl, rfl⟩ := hopen
        exact .inr (.inl ⟨cs, rfl⟩)
      · refine .inr (.inr ⟨fun hc hd => hclose ⟨hc, Option.some.inj hd⟩, ?_⟩)
        exact fun hc hd => hopen ⟨hc, Option.some.inj hd⟩

theorem commentBody_close (cs : List Char) : commentBody ('*' :: '/' :: cs) = some 2 := rfl

/-- A nested comment is taken whole. An opening mark that is never closed is two plain characters,
and then the second of them may belong to a closing mark. -/
theorem commentBody_open (cs : List Char) :
    commentBody ('/' :: '*' :: cs) =
      match commentBody cs with
      | some k => (commentBody (cs.drop k)).map (2 + k + ·)
      | none => if cs.head? = some '/' then some 3 else none := by
  rw [commentBody, commentBodies]
  cases hbody : commentBody cs with
  | some k =>
    simp only [List.head?_cons, Option.join_some, commentBodies_eq, List.drop_succ_cons,
      List.drop_zero, Nat.add_comm 1, hbody]
  | none =>
    simp only [List.head?_cons, Option.join_some, commentBodies_eq, List.drop_succ_cons,
      List.drop_zero, hbody]

theorem commentBody_plain (h : Plain c cs) :
    commentBody (c :: cs) = (commentBody cs).map (1 + ·) := by
  rw [commentBody, commentBodies]
  · simp only [List.head?_cons, Option.join_some, commentBodies_eq, List.drop_zero]
  · rintro rest rfl rfl
    exact h.1 rfl rfl
  · rintro rest rfl rfl
    exact h.2 rfl rfl

/-- Induction on a comment that closes, one case for each way to go on. -/
theorem commentBody_induction {P : List Char → Nat → Prop}
    (close : ∀ cs, P ('*' :: '/' :: cs) 2)
    (nested : ∀ cs j k, commentBody cs = some j → P cs j → commentBody (cs.drop j) = some k →
      P (cs.drop j) k → P ('/' :: '*' :: cs) (2 + j + k))
    (unclosed : ∀ cs, commentBody ('/' :: cs) = none → P ('/' :: '*' :: '/' :: cs) 3)
    (plain : ∀ c cs k, Plain c cs → commentBody cs = some k → P cs k → P (c :: cs) (1 + k))
    (h : commentBody cs = some n) : P cs n := by
  induction hlen : cs.length using Nat.strongRecOn generalizing cs n with
  | _ size ih =>
    cases cs with
    | nil => cases h
    | cons c cs =>
      simp only [List.length_cons] at hlen
      obtain ⟨rest, heq⟩ | ⟨rest, heq⟩ | hplain := plain_cases c cs
      · rw [heq, commentBody_close] at h
        obtain rfl := Option.some.inj h
        rw [heq]
        exact close rest
      · obtain ⟨rfl, rfl⟩ := List.cons.inj heq
        simp only [List.length_cons] at hlen
        rw [commentBody_open] at h
        split at h
        · next j hj =>
          obtain ⟨k, hk, rfl⟩ := Option.map_eq_some_iff.mp h
          refine nested rest j k hj (ih rest.length (by omega) hj rfl) hk ?_
          exact ih (rest.drop j).length (by rw [List.length_drop]; omega) hk rfl
        · next hnone =>
          split at h
          · next hhead =>
            obtain ⟨inner, rfl⟩ := List.head?_eq_some_iff.mp hhead
            obtain rfl := Option.some.inj h
            exact unclosed inner hnone
          · cases h
      · rw [commentBody_plain hplain] at h
        obtain ⟨k, hk, rfl⟩ := Option.map_eq_some_iff.mp h
        exact plain c cs k hplain hk (ih cs.length (by omega) hk rfl)

theorem commentBody_le (h : commentBody cs = some n) : n ≤ cs.length := by
  refine commentBody_induction (P := fun cs n => n ≤ cs.length) ?_ ?_ ?_ ?_ h
  · simp
  · intro cs j k _ hj _ hk
    rw [List.length_drop] at hk
    simp only [List.length_cons]
    omega
  · simp
  · intro c cs k _ _ hk
    rw [List.length_cons]
    omega

/-- A comment stays as it is when the text goes on, if in the text so far no opening mark is
directly followed by a slash. -/
theorem commentBody_append (h : commentBody cs = some n) (hno : ¬['/', '*', '/'] <:+: cs) :
    commentBody (cs ++ tail) = some n := by
  refine commentBody_induction
    (P := fun cs n => ¬['/', '*', '/'] <:+: cs → commentBody (cs ++ tail) = some n)
    ?_ ?_ ?_ ?_ h hno
  · exact fun cs _ => commentBody_close _
  · intro cs j k hj hfirst _ hsecond hno
    have hinner : ¬['/', '*', '/'] <:+: cs := fun hin =>
      hno (hin.trans ⟨['/', '*'], [], by simp⟩)
    have hrest : ¬['/', '*', '/'] <:+: cs.drop j := fun hin =>
      hinner (hin.trans (List.drop_suffix j cs).isInfix)
    rw [List.cons_append, List.cons_append, commentBody_open, hfirst hinner]
    simp only [List.drop_append_of_le_length (commentBody_le hj), hsecond hrest, Option.map_some]
  · intro cs _ hno
    exact absurd ⟨[], cs, rfl⟩ hno
  · intro c cs k hplain hk ih hno
    have hcs : cs ≠ [] := by
      rintro rfl
      cases hk
    have hhead : (cs ++ tail).head? = cs.head? := by
      rw [List.head?_append, List.head?_eq_some_head hcs]
      rfl
    have hmore : Plain c (cs ++ tail) := by
      rwa [Plain, hhead]
    rw [List.cons_append, commentBody_plain hmore, ih fun hin => hno (hin.trans ⟨[c], [], by simp⟩)]
    rfl

/-- A comment stays as it is when the text is cut off behind it, if no opening mark in the comment
is directly followed by a slash. -/
theorem commentBody_take {m : Nat} (h : commentBody cs = some n) (hm : n ≤ m)
    (hno : ¬['/', '*', '/'] <:+: cs.take n) : commentBody (cs.take m) = some n := by
  refine commentBody_induction
    (P := fun cs n => ∀ m, n ≤ m → ¬['/', '*', '/'] <:+: cs.take n →
      commentBody (cs.take m) = some n) ?_ ?_ ?_ ?_ h m hm hno
  · intro cs m hm _
    obtain ⟨m, rfl⟩ := Nat.exists_eq_add_of_le' hm
    exact commentBody_close _
  · intro cs j k hj hfirst _ hsecond m hm hno
    obtain ⟨m, rfl⟩ := Nat.exists_eq_add_of_le' (show 2 ≤ m by omega)
    have hsplit : ('/' :: '*' :: cs).take (2 + j + k) =
        '/' :: '*' :: (cs.take j ++ (cs.drop j).take k) := by
      rw [Nat.add_assoc, Nat.add_comm, List.take_succ_cons, List.take_succ_cons, List.take_add]
    rw [hsplit] at hno
    have hinner : ¬['/', '*', '/'] <:+: cs.take j := fun hin =>
      hno (hin.trans ⟨['/', '*'], (cs.drop j).take k, by simp⟩)
    have hrest : ¬['/', '*', '/'] <:+: (cs.drop j).take k := fun hin =>
      hno (hin.trans ⟨'/' :: '*' :: cs.take j, [], by simp⟩)
    rw [List.take_succ_cons, List.take_succ_cons, commentBody_open, hfirst m (by omega) hinner]
    simp only [List.drop_take, hsecond (m - j) (by omega) hrest, Option.map_some]
  · intro cs _ m hm hno
    exact absurd ⟨[], [], rfl⟩ hno
  · intro c cs k hplain _ ih m hm hno
    obtain ⟨m, rfl⟩ := Nat.exists_eq_add_of_le' (show 1 ≤ m by omega)
    have hless : Plain c (cs.take m) := by
      rw [Plain, List.head?_take]
      split
      · exact ⟨fun _ => nofun, fun _ => nofun⟩
      · exact hplain
    rw [Nat.add_comm, List.take_succ_cons] at hno
    have hinner : ¬['/', '*', '/'] <:+: cs.take k := fun hin =>
      hno (hin.trans ⟨[c], [], by simp⟩)
    rw [List.take_succ_cons, commentBody_plain hless, ih m (by omega) hinner]
    rfl

theorem comment_line (cs : List Char) :
    comment ('/' :: '/' :: cs) = 2 + run (!isBreak ·) cs := by
  simp [comment, lineComment, blockComment]

theorem comment_block (cs : List Char) :
    comment ('/' :: '*' :: cs) = ((commentBody cs).map (2 + ·)).getD 0 := by
  simp [comment, lineComment, blockComment]

theorem comment_of_not_open (h : c = '/' → cs.head? ≠ some '/' ∧ cs.head? ≠ some '*') :
    comment (c :: cs) = 0 := by
  have hline : lineComment (c :: cs) = 0 := by
    unfold lineComment
    split
    · next heq =>
      obtain ⟨rfl, rfl⟩ := List.cons.inj heq
      exact absurd rfl (h rfl).1
    · rfl
  have hblock : blockComment (c :: cs) = 0 := by
    unfold blockComment
    split
    · next heq =>
      obtain ⟨rfl, rfl⟩ := List.cons.inj heq
      exact absurd rfl (h rfl).2
    · rfl
  rw [comment, hline, hblock, Nat.max_self]

/-- The two forms of a comment, told apart by the second character. -/
theorem comment_cases (h : 0 < comment cs) :
    (∃ rest, cs = '/' :: '/' :: rest) ∨
      ∃ rest k, cs = '/' :: '*' :: rest ∧ commentBody rest = some k := by
  match cs with
  | [] => cases h
  | c :: cs =>
    by_cases hopen : c = '/' → cs.head? ≠ some '/' ∧ cs.head? ≠ some '*'
    · rw [comment_of_not_open hopen] at h
      cases h
    · obtain ⟨rfl, hhead⟩ := Classical.not_imp.mp hopen
      rw [Classical.not_and_iff_not_or_not, Classical.not_not, Classical.not_not] at hhead
      obtain hhead | hhead := hhead
      · obtain ⟨rest, rfl⟩ := List.head?_eq_some_iff.mp hhead
        exact .inl ⟨rest, rfl⟩
      · obtain ⟨rest, rfl⟩ := List.head?_eq_some_iff.mp hhead
        rw [comment_block] at h
        cases hbody : commentBody rest with
        | none => simp [hbody] at h
        | some k => exact .inr ⟨rest, k, rfl, hbody⟩

theorem comment_le (cs : List Char) : comment cs ≤ cs.length := by
  obtain hzero | hpos := Nat.eq_zero_or_pos (comment cs)
  · omega
  · obtain ⟨rest, rfl⟩ | ⟨rest, k, rfl, hk⟩ := comment_cases hpos
    · have hle := run_le (p := (!isBreak ·)) rest
      rw [comment_line]
      simp only [List.length_cons]
      omega
    · have hle := commentBody_le hk
      rw [comment_block, hk]
      simp only [Option.map_some, Option.getD_some, List.length_cons]
      omega

/-- A comment stays as it is when the text goes on behind a line break. -/
theorem comment_append (hpos : 0 < comment cs) (hno : ¬['/', '*', '/'] <:+: cs)
    (htail : ∀ c ∈ tail.head?, isBreak c) : comment (cs ++ tail) = comment cs := by
  obtain ⟨rest, rfl⟩ | ⟨rest, k, rfl, hk⟩ := comment_cases hpos
  · have hrun : run (!isBreak ·) (rest.take rest.length ++ tail) =
        min rest.length (run (!isBreak ·) rest) :=
      run_take_append fun c hc => by simp [htail c hc]
    rw [List.take_length, Nat.min_eq_right (run_le rest)] at hrun
    rw [List.cons_append, List.cons_append, comment_line, comment_line, hrun]
  · have hinner : ¬['/', '*', '/'] <:+: rest := fun hin =>
      hno (hin.trans ⟨['/', '*'], [], by simp⟩)
    rw [List.cons_append, List.cons_append, comment_block, comment_block,
      commentBody_append hk hinner, hk]

/-- A comment stays as it is when the text is cut off behind it. -/
theorem comment_take {m : Nat} (hpos : 0 < comment cs) (hm : comment cs ≤ m)
    (hno : ∀ inner, cs.take (comment cs) = '/' :: '*' :: inner → ¬['/', '*', '/'] <:+: inner) :
    comment (cs.take m) = comment cs := by
  obtain ⟨rest, rfl⟩ | ⟨rest, k, rfl, hk⟩ := comment_cases hpos
  · rw [comment_line] at hm ⊢
    obtain ⟨m, rfl⟩ := Nat.exists_eq_add_of_le' (show 2 ≤ m by omega)
    have hrun : run (!isBreak ·) (rest.take m ++ []) = min m (run (!isBreak ·) rest) :=
      run_take_append nofun
    rw [List.append_nil, Nat.min_eq_right (by omega)] at hrun
    rw [List.take_succ_cons, List.take_succ_cons, comment_line, hrun]
  · have hcomment : comment ('/' :: '*' :: rest) = k + 2 := by
      rw [comment_block, hk, Option.map_some, Option.getD_some, Nat.add_comm]
    rw [hcomment] at hm hno ⊢
    obtain ⟨m, rfl⟩ := Nat.exists_eq_add_of_le' (show 2 ≤ m by omega)
    have hinner := hno (rest.take k) (by rw [List.take_succ_cons, List.take_succ_cons])
    rw [List.take_succ_cons, List.take_succ_cons, comment_block,
      commentBody_take hk (by omega) hinner, Option.map_some, Option.getD_some, Nat.add_comm]

end Lexical

end SolidScript
