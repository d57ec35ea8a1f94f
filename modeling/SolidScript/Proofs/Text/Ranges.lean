import SolidScript.Proofs.Text.Lines

namespace SolidScript

/-- The characters that end a line. -/
inductive Break : List Char → Prop
  | feed : Break ['\n']
  | lone : Break ['\r']
  | both : Break ['\r', '\n']

/-- How many line breaks a text has. Each is counted at its last character. -/
def breakCount : List Char → Nat
  | [] => 0
  | c :: cs => (if c = '\n' ∨ c = '\r' ∧ cs.head? ≠ some '\n' then 1 else 0) + breakCount cs

/-- Characters that end no line. -/
def Unbroken (text : List Char) : Prop := ∀ c ∈ text, c ≠ '\r' ∧ c ≠ '\n'

theorem breakCount_append_of_unbroken {text : List Char} (h : Unbroken text) (cs : List Char) :
    breakCount (text ++ cs) = breakCount cs := by
  induction text with
  | nil => rfl
  | cons c text ih =>
    obtain ⟨hhead, htext⟩ := List.forall_mem_cons.mp h
    rw [List.cons_append, breakCount, ih htext]
    simp [hhead]

theorem Break.breakCount_append {ending cs : List Char} (h : Break ending)
    (hseam : Seam ending cs) : breakCount (ending ++ cs) = breakCount cs + 1 := by
  cases h with
  | feed => simp [breakCount, Nat.add_comm]
  | lone => simp [breakCount, hseam rfl, Nat.add_comm]
  | both => simp [breakCount, Nat.add_comm]

theorem Break.byteLength_pos {ending : List Char} (h : Break ending) : 0 < byteLength ending := by
  cases h <;> decide

/-- A carriage return stands behind all characters that end no line. -/
theorem Unbroken.split {text cs before after : List Char} (h : Unbroken text)
    (hsame : text ++ cs = before ++ '\r' :: after) :
    ∃ t, before = text ++ t ∧ cs = t ++ '\r' :: after := by
  obtain ⟨t, ht, hcs⟩ | ⟨t, rfl, hcs⟩ := List.append_eq_append_iff.mp hsame
  · exact ⟨t, ht, hcs⟩
  · cases t with
    | nil => exact ⟨[], by simp, hcs.symm⟩
    | cons c t =>
      obtain ⟨rfl, _⟩ := List.cons.inj hcs
      exact absurd rfl (h '\r' (by simp)).1

/-- A carriage return with its line feed is the break that a text begins with, or stands behind
that break. -/
theorem Break.split {ending cs before after : List Char} (h : Break ending)
    (hseam : Seam ending cs) (hsame : ending ++ cs = before ++ '\r' :: '\n' :: after) :
    before = [] ∧ ending = ['\r', '\n'] ∨
      ∃ t, before = ending ++ t ∧ cs = t ++ '\r' :: '\n' :: after := by
  cases before with
  | nil =>
    cases h with
    | feed => exact absurd (List.cons.inj hsame).1 (by decide)
    | lone => exact absurd (congrArg List.head? (List.cons.inj hsame).2) (hseam rfl)
    | both => exact .inl ⟨rfl, rfl⟩
  | cons c before =>
    cases h with
    | feed | lone =>
      obtain ⟨rfl, hrest⟩ := List.cons.inj hsame
      exact .inr ⟨before, rfl, hrest⟩
    | both =>
      obtain ⟨rfl, hsecond⟩ := List.cons.inj hsame
      cases before with
      | nil => exact absurd (List.cons.inj hsecond).1 (by decide)
      | cons d before =>
        obtain ⟨rfl, hrest⟩ := List.cons.inj hsecond
        exact .inr ⟨before, rfl, hrest⟩

namespace LineIndex

/-- A text of which the first character has the byte offset `start` is made of the lines, in order,
with a whole break between each and the next. -/
inductive Tiles : Nat → List Char → List Line → Prop
  | last {start : Nat} {text : List Char} (htext : Unbroken text) :
    Tiles start text [⟨start, text⟩]
  | line {start : Nat} {text ending cs : List Char} {ls : List Line} (htext : Unbroken text)
    (hbreak : Break ending) (hseam : Seam ending cs)
    (hothers : Tiles (start + byteLength (text ++ ending)) cs ls) :
    Tiles start (text ++ (ending ++ cs)) (⟨start, text⟩ :: ls)

theorem Tiles.addChar {start : Nat} {c : Char} {cs : List Char} {ix : LineIndex}
    (hplain : c ≠ '\r' ∧ c ≠ '\n') (h : Tiles (start + c.utf8Size) cs ix.lines) :
    Tiles start (c :: cs) (LineIndex.addChar start c ix).lines := by
  obtain ⟨first, rest⟩ := ix
  change Tiles _ _ (⟨start, c :: first.text⟩ :: rest)
  cases h with
  | last htext => exact .last (List.forall_mem_cons.mpr ⟨hplain, htext⟩)
  | line htext hbreak hseam hothers =>
    refine .line (List.forall_mem_cons.mpr ⟨hplain, htext⟩) hbreak hseam ?_
    rwa [List.cons_append, byteLength_cons, ← Nat.add_assoc]

theorem splitFrom_tiles (start : Nat) (cs : List Char) :
    Tiles start cs (splitFrom start cs).lines := by
  have hempty : Unbroken [] := List.forall_mem_nil _
  fun_induction splitFrom start cs with
  | case1 start => exact .last hempty
  | case2 start cs ih => exact .line hempty .both (fun hlast => absurd hlast (by decide)) ih
  | case3 start cs hlone ih =>
    refine .line hempty .lone (fun _ hhead => ?_) ih
    obtain ⟨rest, rfl⟩ := List.head?_eq_some_iff.mp hhead
    exact hlone rest rfl
  | case4 start cs ih => exact .line hempty .feed (fun hlast => absurd hlast (by decide)) ih
  | case5 start c cs _ hreturn hfeed ih => exact ih.addChar ⟨hreturn, hfeed⟩

section Tiles

variable {start : Nat} {cs : List Char} {ls : List Line}

theorem Tiles.head (h : Tiles start cs ls) : ∃ l ls', ls = l :: ls' ∧ l.start = start := by
  cases h <;> exact ⟨_, _, rfl, rfl⟩

theorem Tiles.length (h : Tiles start cs ls) : ls.length = breakCount cs + 1 := by
  induction h with
  | last htext =>
    have hnone := breakCount_append_of_unbroken htext []
    rw [List.append_nil] at hnone
    rw [hnone]
    rfl
  | line htext hbreak hseam _ ih =>
    rw [breakCount_append_of_unbroken htext, hbreak.breakCount_append hseam, List.length_cons, ih]

/-- Each line is a part of the text, which it shares no break with. -/
theorem Tiles.exists_split (h : Tiles start cs ls) {l : Line} (hl : l ∈ ls) :
    ∃ before after, cs = before ++ (l.text ++ after) ∧ l.start = start + byteLength before ∧
      Unbroken l.text := by
  induction h with
  | last htext =>
    obtain rfl := List.mem_singleton.mp hl
    exact ⟨[], [], by simp, rfl, htext⟩
  | @line start text ending cs ls htext _ _ _ ih =>
    obtain rfl | hl := List.mem_cons.mp hl
    · exact ⟨[], ending ++ cs, rfl, rfl, htext⟩
    · obtain ⟨before, after, rfl, hstart, hplain⟩ := ih hl
      refine ⟨text ++ ending ++ before, after, by simp, ?_, hplain⟩
      rw [hstart, byteLength_append _ before, Nat.add_assoc]

theorem Tiles.ordered (h : Tiles start cs ls) : ls.Pairwise fun a b => a.stop < b.start := by
  induction h with
  | last => exact List.pairwise_singleton _ _
  | line _ hbreak _ hothers ih =>
    refine List.pairwise_cons.mpr ⟨fun l hl => ?_, ih⟩
    obtain ⟨_, _, _, hstart, _⟩ := hothers.exists_split hl
    have hpos := hbreak.byteLength_pos
    simp only [hstart, byteLength_append, Line.stop]
    omega

/-- Where a carriage return with its line feed stands, one line ends and another one begins. -/
theorem Tiles.split_at_break {before after : List Char} (h : Tiles start cs ls)
    (hcs : cs = before ++ '\r' :: '\n' :: after) :
    ∃ as l l' bs, ls = as ++ l :: l' :: bs ∧ l.stop = start + byteLength before ∧
      l'.start = l.stop + 2 := by
  induction h generalizing before with
  | last htext =>
    rw [hcs] at htext
    exact absurd rfl (htext '\r' (by simp)).1
  | @line start text ending cs ls htext hbreak hseam hothers ih =>
    obtain ⟨t, rfl, hbehind⟩ := htext.split hcs
    obtain ⟨rfl, rfl⟩ | ⟨t, rfl, hlater⟩ := hbreak.split hseam hbehind
    · obtain ⟨l, ls, rfl, hstart⟩ := hothers.head
      refine ⟨[], _, l, ls, rfl, by simp [Line.stop], ?_⟩
      rw [hstart, byteLength_append, Line.stop, ← Nat.add_assoc]
      rfl
    · obtain ⟨as, l, l', bs, rfl, hstop, hnext⟩ := ih hlater
      refine ⟨⟨start, text⟩ :: as, l, l', bs, rfl, ?_, hnext⟩
      rw [hstop]
      simp only [byteLength_append]
      omega

end Tiles

end LineIndex

end SolidScript
