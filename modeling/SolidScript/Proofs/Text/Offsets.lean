import Mathlib.Data.Prod.Lex
import SolidScript.Proofs.Text.Ranges

namespace SolidScript

/-- The byte offset is not inside a character of the text, nor behind its end. -/
def Boundary (source : String) (offset : Nat) : Prop := (String.Pos.Raw.mk offset).IsValid source

theorem boundary_iff {source : String} {offset : Nat} :
    Boundary source offset ↔ ∃ before after, source.toList = before ++ after ∧
      byteLength before = offset := by
  rw [Boundary, String.Pos.Raw.isValid_iff_exists_append]
  constructor
  · rintro ⟨before, after, rfl, hoffset⟩
    refine ⟨before.toList, after.toList, String.toList_append, ?_⟩
    rw [byteLength_toList]
    exact congrArg String.Pos.Raw.byteIdx hoffset.symm
  · rintro ⟨before, after, hsource, rfl⟩
    refine ⟨String.ofList before, String.ofList after, ?_, ?_⟩
    · rw [← String.ofList_append, ← hsource, String.ofList_toList]
    · have hsize := byteLength_toList (String.ofList before)
      rw [String.toList_ofList] at hsize
      rw [hsize]
      rfl

section ByteLength

theorem eq_nil_of_byteLength {cs : List Char} (h : byteLength cs = 0) : cs = [] := by
  cases cs with
  | nil => rfl
  | cons c cs =>
    have hpos := c.utf8Size_pos
    rw [byteLength_cons] at h
    omega

theorem byteLength_take_lt {cs : List Char} {i j : Nat} (hij : i < j) (hj : j ≤ cs.length) :
    byteLength (cs.take i) < byteLength (cs.take j) := by
  obtain ⟨k, rfl⟩ := Nat.exists_eq_add_of_lt hij
  rw [Nat.add_assoc, List.take_add, byteLength_append]
  apply Nat.lt_add_of_pos_right
  refine Nat.pos_of_ne_zero fun hzero => ?_
  have hlength := congrArg List.length (eq_nil_of_byteLength hzero)
  simp only [List.length_take, List.length_drop, List.length_nil] at hlength
  omega

theorem byteLength_take_lt_iff {cs : List Char} {i j : Nat} (hi : i ≤ cs.length)
    (hj : j ≤ cs.length) : byteLength (cs.take i) < byteLength (cs.take j) ↔ i < j := by
  refine ⟨fun hlt => ?_, fun hij => byteLength_take_lt hij hj⟩
  by_contra hnot
  obtain hji | rfl := Nat.lt_or_eq_of_le (Nat.le_of_not_lt hnot)
  · exact absurd hlt (Nat.not_lt_of_lt (byteLength_take_lt hji hi))
  · exact Nat.lt_irrefl _ hlt

theorem byteLength_take_le (cs : List Char) (i : Nat) : byteLength (cs.take i) ≤ byteLength cs := by
  conv_rhs => rw [← List.take_append_drop i cs, byteLength_append]
  exact Nat.le_add_right _ _

/-- Where a text can be cut, a part of it that reaches over that place can be cut as well. -/
theorem exists_take_of_cut {before after front text back : List Char}
    (hsame : before ++ after = front ++ (text ++ back))
    (hfront : byteLength front ≤ byteLength before)
    (hback : byteLength before ≤ byteLength front + byteLength text) :
    ∃ k ≤ text.length, byteLength before = byteLength front + byteLength (text.take k) := by
  obtain ⟨t, rfl, _⟩ | ⟨t, rfl, hrest⟩ := List.append_eq_append_iff.mp hsame
  · rw [byteLength_append] at hfront ⊢
    exact ⟨0, Nat.zero_le _, by simp; omega⟩
  · obtain ⟨u, rfl, _⟩ | ⟨u, rfl, _⟩ := List.append_eq_append_iff.mp hrest
    · refine ⟨text.length, Nat.le_refl _, ?_⟩
      simp only [byteLength_append, List.take_length] at hback ⊢
      omega
    · exact ⟨t.length, by simp, by simp⟩

end ByteLength

namespace LineIndex

theorem charsWithin?_take {text : List Char} {k : Nat} (h : k ≤ text.length) :
    charsWithin? text (byteLength (text.take k)) = some k := by
  induction text generalizing k with
  | nil =>
    obtain rfl := Nat.le_zero.mp h
    rfl
  | cons c text ih =>
    cases k with
    | zero => rfl
    | succ k =>
      rw [List.take_succ_cons, byteLength_cons, charsWithin?_cons,
        ih (Nat.le_of_succ_le_succ h), Option.map_some]

section Column

variable {l : Line} {offset k : Nat}

theorem columnIn_of_take (hk : k ≤ l.text.length)
    (hoffset : offset = l.start + byteLength (l.text.take k)) : columnIn l offset = k + 1 := by
  have hle := byteLength_take_le l.text k
  have hbytes : min offset l.stop - l.start = byteLength (l.text.take k) := by
    simp only [Line.stop]
    omega
  simp only [columnIn, hbytes, charsWithin?_take hk, Option.getD_some]

theorem columnIn_of_stop_le (h : l.stop ≤ offset) : columnIn l offset = l.text.length + 1 := by
  have hmin : columnIn l offset = columnIn l l.stop := by
    simp only [columnIn, Nat.min_eq_right h, Nat.min_self]
  rw [hmin]
  exact columnIn_of_take (Nat.le_refl _) (by rw [List.take_length, Line.stop])

end Column

/-- The line of the given number is the last one that starts at or before the offset. -/
structure LastStarted (ix : LineIndex) (offset number : Nat) (l : Line) : Prop where
  line : ix.line? number = some l
  start_le : l.start ≤ offset
  later : ∀ n l', number < n → ix.line? n = some l' → offset < l'.start

theorem LastStarted.unique {ix : LineIndex} {offset m n : Nat} {a b : Line}
    (ha : ix.LastStarted offset m a) (hb : ix.LastStarted offset n b) : m = n ∧ a = b := by
  have hmn : m = n := by
    apply Nat.le_antisymm <;> refine Nat.le_of_not_lt fun hlt => ?_
    · exact absurd (hb.later m a hlt ha.line) (Nat.not_lt_of_le ha.start_le)
    · exact absurd (ha.later n b hlt hb.line) (Nat.not_lt_of_le hb.start_le)
  subst hmn
  exact ⟨rfl, Option.some.inj (ha.line.symm.trans hb.line)⟩

/-- Of lines in order of which the first one starts at or before the offset, some start at or before
it and the others behind it. -/
theorem exists_started {ls : List Line} {offset : Nat}
    (hordered : ls.Pairwise fun a b => a.stop < b.start)
    (hfirst : ∃ l ls', ls = l :: ls' ∧ l.start ≤ offset) :
    ∃ as l bs, ls = as ++ l :: bs ∧ (∀ k ∈ as, k.start ≤ offset) ∧ l.start ≤ offset ∧
      ∀ k ∈ bs, offset < k.start := by
  induction ls with
  | nil =>
    obtain ⟨_, _, hnil, _⟩ := hfirst
    cases hnil
  | cons l ls ih =>
    obtain ⟨l', _, hcons, hstart⟩ := hfirst
    obtain rfl := (List.cons.inj hcons).1
    obtain ⟨_, hothers⟩ := List.pairwise_cons.mp hordered
    cases ls with
    | nil => exact ⟨[], l, [], rfl, nofun, hstart, nofun⟩
    | cons m ls =>
      by_cases hnext : m.start ≤ offset
      · obtain ⟨as, k, bs, hsplit, has, hk, hbs⟩ := ih hothers ⟨m, ls, rfl, hnext⟩
        exact ⟨l :: as, k, bs, congrArg (l :: ·) hsplit,
          List.forall_mem_cons.mpr ⟨hstart, has⟩, hk, hbs⟩
      · refine ⟨[], l, m :: ls, rfl, nofun, hstart, List.forall_mem_cons.mpr ⟨by omega, ?_⟩⟩
        intro k hk
        have hbehind := (List.pairwise_cons.mp hothers).1 k hk
        simp only [Line.stop] at hbehind
        omega

section Split

variable {ix : LineIndex} {offset : Nat} {as bs : List Line} {l : Line}

theorem line?_of_split (hlines : ix.lines = as ++ l :: bs) : ix.line? (as.length + 1) = some l := by
  change ix.lines[as.length]? = some l
  rw [hlines, List.getElem?_append_right (Nat.le_refl _), Nat.sub_self]
  rfl

theorem lastStarted_of_split (hlines : ix.lines = as ++ l :: bs) (hl : l.start ≤ offset)
    (hbs : ∀ k ∈ bs, offset < k.start) : ix.LastStarted offset (as.length + 1) l where
  line := line?_of_split hlines
  start_le := hl
  later n l' hn hl' := by
    obtain ⟨k, rfl⟩ := Nat.exists_eq_add_of_lt hn
    change ix.lines[as.length + 1 + k]? = some l' at hl'
    rw [hlines, List.getElem?_append_right (by omega),
      show as.length + 1 + k - as.length = k + 1 by omega, List.getElem?_cons_succ] at hl'
    exact hbs l' (List.mem_of_getElem? hl')

theorem takeWhile_of_split (has : ∀ k ∈ as, k.start ≤ offset) (hl : l.start ≤ offset)
    (hbs : ∀ k ∈ bs, offset < k.start) :
    (as ++ l :: bs).takeWhile (·.start ≤ offset) = as ++ [l] := by
  rw [List.takeWhile_append_of_pos (by simpa using has), List.takeWhile_cons_of_pos (by simpa)]
  cases bs with
  | nil => rfl
  | cons k bs =>
    have hk := hbs k List.mem_cons_self
    rw [List.takeWhile_cons_of_neg (by simpa using hk)]

theorem lineColumn_of_split (hlines : ix.lines = as ++ l :: bs)
    (has : ∀ k ∈ as, k.start ≤ offset) (hl : l.start ≤ offset)
    (hbs : ∀ k ∈ bs, offset < k.start) :
    ix.lineColumn offset = (as.length + 1, columnIn l offset) := by
  obtain ⟨first, rest⟩ := ix
  cases as with
  | nil =>
    obtain ⟨rfl, rfl⟩ := List.cons.inj hlines
    have hnone : rest.takeWhile (·.start ≤ offset) = [] := by
      have hbefore : ∀ k ∈ ([] : List Line), k.start ≤ offset := nofun
      have htaken := takeWhile_of_split hbefore hl hbs
      rw [List.nil_append, List.takeWhile_cons_of_pos (by simpa)] at htaken
      exact (List.cons.inj htaken).2
    simp only [lineColumn, hnone]
    rfl
  | cons k as =>
    obtain ⟨rfl, hrest⟩ := List.cons.inj hlines
    have htaken := takeWhile_of_split (List.forall_mem_cons.mp has).2 hl hbs
    change rest = as ++ l :: bs at hrest
    simp only [lineColumn, hrest, htaken, List.length_append, List.length_cons, List.length_nil,
      List.getLast?_append, List.getLast?_singleton, Option.some_or, Option.getD_some]

end Split

/-- The look-up with its two dangers in sight: there has to be a line at the place that the search
ends at, and the offset must not lie in front of that line. -/
def lineColumn? (ix : LineIndex) (offset : Nat) : Option (Nat × Nat) := do
  let place := (ix.lines.takeWhile (·.start ≤ offset)).length - 1
  let l ← ix.lines[place]?
  let within := min offset (max l.stop l.start)
  if within < l.start then none
  else
    let bytes := within - l.start
    return (place + 1, (charsWithin? l.text bytes).getD bytes + 1)

theorem lineColumn?_of_split {ix : LineIndex} {offset : Nat} {as bs : List Line} {l : Line}
    (hlines : ix.lines = as ++ l :: bs) (has : ∀ k ∈ as, k.start ≤ offset)
    (hl : l.start ≤ offset) (hbs : ∀ k ∈ bs, offset < k.start) :
    ix.lineColumn? offset = some (as.length + 1, columnIn l offset) := by
  have hplace : (ix.lines.takeWhile (·.start ≤ offset)).length - 1 = as.length := by
    rw [hlines, takeWhile_of_split has hl hbs]
    simp
  have hfound : ix.lines[as.length]? = some l := line?_of_split hlines
  have hstop : max l.stop l.start = l.stop := by
    simp only [Line.stop]
    omega
  have hinside : ¬min offset l.stop < l.start := by
    simp only [Line.stop]
    omega
  simp only [lineColumn?, hplace, hfound, hstop, Option.bind_eq_bind, Option.bind_some,
    if_neg hinside]
  rfl

section Source

variable {source : String} {offset number : Nat} {l : Line}

theorem ofSource_tiles (source : String) : Tiles 0 source.toList (ofSource source).lines :=
  splitFrom_tiles 0 source.toList

/-- Where in the lines of a text an offset is found. -/
theorem exists_split_at (source : String) (offset : Nat) :
    ∃ as l bs, (ofSource source).lines = as ++ l :: bs ∧ (∀ k ∈ as, k.start ≤ offset) ∧
      l.start ≤ offset ∧ ∀ k ∈ bs, offset < k.start := by
  refine exists_started (ofSource_tiles source).ordered ?_
  obtain ⟨l, ls, hlines, hstart⟩ := (ofSource_tiles source).head
  exact ⟨l, ls, hlines, by omega⟩

theorem LastStarted.lineColumn (h : (ofSource source).LastStarted offset number l) :
    (ofSource source).lineColumn offset = (number, columnIn l offset) := by
  obtain ⟨as, k, bs, hlines, has, hk, hbs⟩ := exists_split_at source offset
  obtain ⟨rfl, rfl⟩ := h.unique (lastStarted_of_split hlines hk hbs)
  exact lineColumn_of_split hlines has hk hbs

theorem exists_lastStarted (source : String) (offset : Nat) :
    ∃ l, (ofSource source).LastStarted offset ((ofSource source).lineColumn offset).1 l := by
  obtain ⟨as, l, bs, hlines, has, hl, hbs⟩ := exists_split_at source offset
  rw [lineColumn_of_split hlines has hl hbs]
  exact ⟨l, lastStarted_of_split hlines hl hbs⟩

/-- The look-up never fails. -/
theorem lineColumn?_eq (source : String) (offset : Nat) :
    (ofSource source).lineColumn? offset = some ((ofSource source).lineColumn offset) := by
  obtain ⟨as, l, bs, hlines, has, hl, hbs⟩ := exists_split_at source offset
  rw [lineColumn?_of_split hlines has hl hbs, lineColumn_of_split hlines has hl hbs]

theorem mem_of_line? {ix : LineIndex} (h : ix.line? number = some l) : l ∈ ix.lines := by
  cases number with
  | zero => cases h
  | succ n => exact List.mem_of_getElem? h

theorem line?_ordered {m n : Nat} {a b : Line} (hmn : m < n)
    (ha : (ofSource source).line? m = some a) (hb : (ofSource source).line? n = some b) :
    a.stop < b.start := by
  cases m with
  | zero => cases ha
  | succ m =>
    cases n with
    | zero => cases hb
    | succ n =>
      obtain ⟨hm, rfl⟩ := List.getElem?_eq_some_iff.mp ha
      obtain ⟨hn, rfl⟩ := List.getElem?_eq_some_iff.mp hb
      exact List.pairwise_iff_getElem.mp (ofSource_tiles source).ordered m n hm hn (by omega)

/-- A boundary comes behind some of the characters of its line, which the column counts; one behind
the line comes behind all of them. -/
theorem LastStarted.exists_column (h : (ofSource source).LastStarted offset number l)
    (hboundary : Boundary source offset) :
    ∃ k ≤ l.text.length, (ofSource source).lineColumn offset = (number, k + 1) ∧
      min offset l.stop = l.start + byteLength (l.text.take k) := by
  obtain hstop | hstop := Nat.le_total l.stop offset
  · refine ⟨l.text.length, Nat.le_refl _, by rw [h.lineColumn, columnIn_of_stop_le hstop], ?_⟩
    rw [Nat.min_eq_right hstop, List.take_length, Line.stop]
  · obtain ⟨before, after, hsource, rfl⟩ := boundary_iff.mp hboundary
    obtain ⟨front, back, hline, hstart, _⟩ :=
      (ofSource_tiles source).exists_split (mem_of_line? h.line)
    rw [Nat.zero_add] at hstart
    have hstart_le := h.start_le
    rw [Nat.min_eq_left hstop]
    rw [Line.stop] at hstop
    obtain ⟨k, hk, hcut⟩ := exists_take_of_cut (hsource.symm.trans hline) (by omega) (by omega)
    rw [← hstart] at hcut
    exact ⟨k, hk, by rw [h.lineColumn, columnIn_of_take hk hcut], hcut⟩

theorem LastStarted.column_of_stop_le (h : (ofSource source).LastStarted offset number l)
    (hstop : l.stop ≤ offset) :
    (ofSource source).lineColumn offset = (number, l.text.length + 1) := by
  rw [h.lineColumn, columnIn_of_stop_le hstop]

/-- A character of a line begins in front of a boundary if its line is an earlier one than that of
the boundary or, on that line, if it is one of those that the column counts. -/
theorem begins_before_iff {line column m i : Nat} {a : Line} (hboundary : Boundary source offset)
    (hplace : (ofSource source).lineColumn offset = (line, column + 1))
    (ha : (ofSource source).line? m = some a) (hi : i < a.text.length) :
    a.start + byteLength (a.text.take i) < offset ↔ m < line ∨ m = line ∧ i < column := by
  obtain ⟨l, hfound⟩ := exists_lastStarted source offset
  rw [hplace] at hfound
  obtain hlt | rfl | hgt := Nat.lt_trichotomy m line
  · have hbefore := line?_ordered hlt ha hfound.line
    have hinside := byteLength_take_le a.text i
    have hstart := hfound.start_le
    simp only [Line.stop] at hbefore
    exact ⟨fun _ => .inl hlt, fun _ => by omega⟩
  · obtain rfl := Option.some.inj (ha.symm.trans hfound.line)
    obtain ⟨k, hk, hcolumn, hcut⟩ := hfound.exists_column hboundary
    obtain rfl : k = column := by simpa using (Prod.mk.inj (hcolumn.symm.trans hplace)).2
    have hinside := byteLength_take_lt hi (Nat.le_refl _)
    have hcounted := byteLength_take_lt_iff (Nat.le_of_lt hi) hk
    rw [List.take_length] at hinside
    simp only [Line.stop] at hcut
    simp only [Nat.lt_irrefl, false_or, true_and, ← hcounted]
    omega
  · have hlater := hfound.later m a hgt ha
    exact ⟨fun _ => by omega, fun _ => by omega⟩

theorem stop_le_size (h : (ofSource source).line? number = some l) :
    l.stop ≤ source.utf8ByteSize := by
  obtain ⟨before, after, hsource, hstart, _⟩ :=
    (ofSource_tiles source).exists_split (mem_of_line? h)
  rw [← byteLength_toList, hsource]
  simp only [byteLength_append, Line.stop]
  omega

/-- Between a carriage return and its line feed the line in front of them is over. -/
theorem lineColumn_inside_break {before after : List Char}
    (hsource : source.toList = before ++ '\r' :: '\n' :: after) :
    ∃ n l, (ofSource source).line? n = some l ∧ l.stop = byteLength before ∧
      (ofSource source).lineColumn (byteLength before + 1) = (n, l.text.length + 1) := by
  obtain ⟨as, l, l', bs, hlines, hstop, hnext⟩ := (ofSource_tiles source).split_at_break hsource
  rw [Nat.zero_add] at hstop
  have hordered := (ofSource_tiles source).ordered
  rw [hlines, List.pairwise_append, List.pairwise_cons, List.pairwise_cons] at hordered
  obtain ⟨_, ⟨_, hlater, _⟩, _⟩ := hordered
  have hstart : l.start ≤ l.stop := Nat.le_add_right _ _
  have hfound : (ofSource source).LastStarted (byteLength before + 1) (as.length + 1) l := by
    refine lastStarted_of_split hlines (by omega) (List.forall_mem_cons.mpr ⟨by omega, ?_⟩)
    intro k hk
    have hbehind := hlater k hk
    have hstart' : l'.start ≤ l'.stop := Nat.le_add_right _ _
    omega
  exact ⟨as.length + 1, l, hfound.line, hstop, hfound.column_of_stop_le (by omega)⟩

/-- Behind the end of the text its last line is over. -/
theorem lineColumn_beyond (hbeyond : source.utf8ByteSize < offset) :
    ∃ l, (ofSource source).line? (ofSource source).count = some l ∧
      (ofSource source).lineColumn offset = ((ofSource source).count, l.text.length + 1) := by
  obtain ⟨as, l, bs, hlines, _, hl, hbs⟩ := exists_split_at source offset
  cases bs with
  | nil =>
    have hcount : (ofSource source).count = as.length + 1 := by simp [count, hlines]
    have hfound := lastStarted_of_split hlines hl hbs
    rw [hcount]
    have hstop := stop_le_size hfound.line
    exact ⟨l, hfound.line, hfound.column_of_stop_le (by omega)⟩
  | cons k bs =>
    have hbehind := hbs k List.mem_cons_self
    obtain ⟨before, after, hsource, hstart, _⟩ :=
      (ofSource_tiles source).exists_split (l := k) (by simp [hlines])
    have hsize := byteLength_toList source
    rw [hsource, byteLength_append] at hsize
    omega

/-- Places come in the order of the offsets. -/
theorem lineColumn_mono {o₁ o₂ : Nat} (h₁ : Boundary source o₁) (h₂ : Boundary source o₂)
    (hle : o₁ ≤ o₂) :
    toLex ((ofSource source).lineColumn o₁) ≤ toLex ((ofSource source).lineColumn o₂) := by
  obtain ⟨a, ha⟩ := exists_lastStarted source o₁
  obtain ⟨b, hb⟩ := exists_lastStarted source o₂
  obtain ⟨j, hj, hplace₁, hcut₁⟩ := ha.exists_column h₁
  obtain ⟨k, hk, hplace₂, hcut₂⟩ := hb.exists_column h₂
  generalize ((ofSource source).lineColumn o₁).1 = m at ha hplace₁
  generalize ((ofSource source).lineColumn o₂).1 = n at hb hplace₂
  rw [hplace₁, hplace₂, Prod.Lex.toLex_le_toLex]
  obtain hlt | rfl | hgt := Nat.lt_trichotomy m n
  · exact .inl hlt
  · obtain rfl := Option.some.inj (ha.line.symm.trans hb.line)
    have hbehind := byteLength_take_lt_iff hk hj
    exact .inr ⟨rfl, by simp only; omega⟩
  · have hlater := hb.later m a hgt ha.line
    have hstart := ha.start_le
    omega

end Source

/-- What the lines of a text and the places that are looked up in them have to do with the text. -/
structure Exact (source : String) (ix : LineIndex) : Prop where
  /-- There is one line more than there are breaks. -/
  count : ix.count = breakCount source.toList + 1
  isSome_line? : ∀ n, (ix.line? n).isSome ↔ 1 ≤ n ∧ n ≤ ix.count
  /-- With the breaks between them the lines are the text. -/
  tiles : Tiles 0 source.toList ix.lines
  ordered : ∀ m n a b, m < n → ix.line? m = some a → ix.line? n = some b →
    a.span.stop < b.span.start
  /-- In the byte range of a line stand the characters of the line. None of them ends a line. -/
  range : ∀ n l, ix.line? n = some l → Unbroken l.text ∧ ∃ before after,
    source.toList = before ++ (l.text ++ after) ∧
      l.span = ⟨byteLength before, byteLength (before ++ l.text)⟩
  /-- No look-up fails, wherever the offset lies. -/
  total : ∀ offset, ix.lineColumn? offset = some (ix.lineColumn offset)
  line : ∀ offset, ∃ l, ix.LastStarted offset (ix.lineColumn offset).1 l
  /-- A boundary that is not behind its line is behind as many characters of it as the column
  says. -/
  column : ∀ offset n c l, Boundary source offset → ix.lineColumn offset = (n, c) →
    ix.line? n = some l → offset ≤ l.stop →
      1 ≤ c ∧ c - 1 ≤ l.text.length ∧ l.start + byteLength (l.text.take (c - 1)) = offset
  /-- Between a carriage return and its line feed the line in front of them is over. -/
  inside_break : ∀ before after, source.toList = before ++ '\r' :: '\n' :: after →
    ∃ n l, ix.line? n = some l ∧ l.stop = byteLength before ∧
      ix.lineColumn (byteLength before + 1) = (n, l.text.length + 1)
  /-- Behind the end of the text its last line is over. -/
  beyond : ∀ offset, source.utf8ByteSize < offset →
    ∃ l, ix.line? ix.count = some l ∧ ix.lineColumn offset = (ix.count, l.text.length + 1)
  monotone : ∀ o₁ o₂, Boundary source o₁ → Boundary source o₂ → o₁ ≤ o₂ →
    toLex (ix.lineColumn o₁) ≤ toLex (ix.lineColumn o₂)

/-- Splitting a text into lines and looking offsets up in them is exact, for every text. -/
theorem ofSource_exact (source : String) : Exact source (ofSource source) where
  count := (ofSource_tiles source).length
  isSome_line? n := by
    cases n with
    | zero => simp [line?]
    | succ n =>
      rw [line?, isSome_getElem?]
      exact ⟨fun hlt => ⟨by omega, hlt⟩, fun hle => hle.2⟩
  tiles := ofSource_tiles source
  ordered _ _ _ _ := line?_ordered
  range n l h := by
    obtain ⟨before, after, hsource, hstart, htext⟩ :=
      (ofSource_tiles source).exists_split (mem_of_line? h)
    rw [Nat.zero_add] at hstart
    refine ⟨htext, before, after, hsource, ?_⟩
    rw [Line.span, Line.stop, byteLength_append, hstart]
  total := lineColumn?_eq source
  line := exists_lastStarted source
  column offset n c l hboundary hplace hline hstop := by
    obtain ⟨a, hfound⟩ := exists_lastStarted source offset
    rw [hplace] at hfound
    obtain rfl := Option.some.inj (hline.symm.trans hfound.line)
    obtain ⟨k, hk, hcolumn, hcut⟩ := hfound.exists_column hboundary
    obtain rfl := (Prod.mk.inj (hplace.symm.trans hcolumn)).2
    exact ⟨by omega, hk, by rw [Nat.add_sub_cancel, ← hcut, Nat.min_eq_left hstop]⟩
  inside_break _ _ := lineColumn_inside_break
  beyond _ := lineColumn_beyond
  monotone _ _ := lineColumn_mono

/-- The second offset is inside the first break, and the last one is behind the end. -/
example : [0, 2, 3, 4, 9].map (ofSource "a\r\nb\rc\n").lineColumn =
    [(1, 1), (1, 2), (2, 1), (2, 2), (4, 1)] := by decide

end LineIndex

end SolidScript
