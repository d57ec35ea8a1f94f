import SolidScript.Proofs.Diagnostic.Alignment

namespace SolidScript

open LineIndex

namespace Line

/-- The span covers the character of the line with `i` others in front of it. -/
def Covered (l : Line) (span : Span) (i : Nat) : Prop :=
  i < l.text.length ∧ span.start ≤ l.start + byteLength (l.text.take i) ∧
    l.start + byteLength (l.text.take i) < span.stop

/-- The columns of the line, counted from zero, that are to be underlined: those of the covered
characters, or a single one if no character is covered. -/
def Underlined (l : Line) (span : Span) (single i : Nat) : Prop :=
  l.Covered span i ∨ (∀ j, ¬l.Covered span j) ∧ i = single

end Line

namespace Snippet

/-- The row has a bar behind blanks, and then, behind more blanks, one `^` and nothing but `~`. With
`margin` characters in front of the first column, it marks just the given columns. -/
structure Marks (row : List Char) (margin : Nat) (columns : Nat → Prop) : Prop where
  shape : ∃ width before after, row =
    blank width ++ '|' :: (blank before ++ '^' :: List.replicate after '~')
  marked : ∀ k, row[k]? = some '^' ∨ row[k]? = some '~' ↔ ∃ i, k = margin + i ∧ columns i

/-- In front of a line of the source stand its number, behind blanks, and a bar. -/
def Margin (number : Nat) (margin : List Char) : Prop :=
  ∃ width, margin = blank width ++ Nat.toDigits 10 number ++ [' ', '|', ' ']

/-- The block shows the line of its number as it is. If the span touches the line there is a row
below that marks the columns to be underlined, and otherwise there is none. -/
def Describes (ix : LineIndex) (span : Span) (first last : Nat × Nat) (b : Block) : Prop :=
  ∃ l margin, ix.line? b.number = some l ∧ Margin b.number margin ∧ b.source = margin ++ l.text ∧
    (first.1 ≤ b.number ∧ b.number ≤ last.1 → ∃ row, b.mark? = some row ∧
      Marks row margin.length
        (l.Underlined span (if b.number = first.1 then first.2 - 1 else 0))) ∧
    (¬(first.1 ≤ b.number ∧ b.number ≤ last.1) → b.mark? = none)

theorem Marks.congr {row : List Char} {margin : Nat} {p q : Nat → Prop} (h : Marks row margin p)
    (hsame : ∀ i, q i ↔ p i) : Marks row margin q where
  shape := h.shape
  marked k := by simp only [h.marked, hsame]

/-- Only the end of the row is marked. -/
theorem marked_append {front : List Char} (after k : Nat) (hcaret : '^' ∉ front)
    (htilde : '~' ∉ front) :
    ((front ++ '^' :: List.replicate after '~')[k]? = some '^' ∨
        (front ++ '^' :: List.replicate after '~')[k]? = some '~') ↔
      front.length ≤ k ∧ k ≤ front.length + after := by
  obtain hin | hout := Nat.lt_or_ge k front.length
  · rw [List.getElem?_append_left hin]
    constructor
    · rintro (h | h)
      · exact absurd (List.mem_of_getElem? h) hcaret
      · exact absurd (List.mem_of_getElem? h) htilde
    · omega
  · obtain ⟨j, rfl⟩ := Nat.exists_eq_add_of_le hout
    rw [List.getElem?_append_right hout, Nat.add_sub_cancel_left]
    cases j with
    | zero => simp
    | succ j =>
      rw [List.getElem?_cons_succ, List.getElem?_replicate]
      split <;> simp <;> omega

/-- A row marks the columns from the first one to the last one, and the first one in any case. -/
theorem marks_markRow (width start stop : Nat) :
    Marks (markRow width start stop) (width + 3)
      (fun i => start ≤ i ∧ i ≤ start + (stop - start - 1)) where
  shape := ⟨width + 1, start + 1, stop - start - 1, by
    simp [markRow, blank, List.replicate_succ', ← List.replicate_succ]⟩
  marked k := by
    have hfront : (blank width ++ [' ', '|', ' '] ++ blank start).length = width + 3 + start := by
      simp [blank]
      omega
    have hcaret : '^' ∉ blank width ++ [' ', '|', ' '] ++ blank start := by simp [blank]
    have htilde : '~' ∉ blank width ++ [' ', '|', ' '] ++ blank start := by simp [blank]
    rw [markRow, marked_append _ _ hcaret htilde, hfront]
    constructor
    · rintro ⟨hstart, hstop⟩
      obtain ⟨i, rfl⟩ := Nat.exists_eq_add_of_le (show width + 3 ≤ k by omega)
      exact ⟨i, rfl, by omega, by omega⟩
    · rintro ⟨i, rfl, hstart, hstop⟩
      omega

theorem pairwise_blocks (ix : LineIndex) (e : Extent) :
    (blocks ix e).Pairwise fun a b => a.number < b.number := by
  have hnumbers : ((blocks ix e).map Block.number).Pairwise (· < ·) := by
    rw [map_number_blocks]
    exact (List.pairwise_lt_range' ..).filter _
  exact List.pairwise_map.mp hnumbers

end Snippet

section Extent

variable {source : String} {span : Span} {n : Nat} {l : Line}

/-- The underline of a line goes over the characters that the span covers. -/
theorem Extent.covered_iff (hstart : Boundary source span.start)
    (hstop : Boundary source span.stop) (hl : (ofSource source).line? n = some l)
    (hcovers : (Extent.ofSpan (ofSource source) span).covers n) (i : Nat) :
    l.Covered span i ↔ (Extent.ofSpan (ofSource source) span).markStart n ≤ i ∧
      i < (Extent.ofSpan (ofSource source) span).markStop n l.text := by
  obtain ⟨a, ha⟩ := exists_lastStarted source span.start
  obtain ⟨b, hb⟩ := exists_lastStarted source span.stop
  obtain ⟨j, _, hfirst, _⟩ := ha.exists_column hstart
  obtain ⟨k, hk, hlast, _⟩ := hb.exists_column hstop
  generalize ((ofSource source).lineColumn span.start).1 = first at ha hfirst
  generalize ((ofSource source).lineColumn span.stop).1 = last at hb hlast
  have hextent : Extent.ofSpan (ofSource source) span = ⟨first, j + 1, last, k + 1⟩ := by
    rw [Extent.ofSpan, hfirst, hlast]
  simp only [hextent, Extent.covers, Bool.and_eq_true, decide_eq_true_eq] at hcovers
  simp only [hextent, Extent.markStart, Extent.markStop, Nat.add_sub_cancel]
  have hinside : n = last → k ≤ l.text.length := by
    rintro rfl
    obtain rfl := Option.some.inj (hl.symm.trans hb.line)
    exact hk
  constructor
  · rintro ⟨hi, hbehind, hbefore⟩
    rw [begins_before_iff hstop hlast hl hi] at hbefore
    rw [← Nat.not_lt, begins_before_iff hstart hfirst hl hi] at hbehind
    split <;> split <;> omega
  · rintro ⟨hmarkStart, hmarkStop⟩
    have hi : i < l.text.length := by
      split at hmarkStop <;> omega
    refine ⟨hi, ?_, ?_⟩
    · rw [← Nat.not_lt, begins_before_iff hstart hfirst hl hi]
      split at hmarkStart <;> omega
    · rw [begins_before_iff hstop hlast hl hi]
      split at hmarkStop <;> omega

/-- With nothing to go over, the underline is a single character where it would start. -/
theorem Extent.underlined_iff (hstart : Boundary source span.start)
    (hstop : Boundary source span.stop) (hl : (ofSource source).line? n = some l)
    (hcovers : (Extent.ofSpan (ofSource source) span).covers n) (i : Nat) :
    let first := (Extent.ofSpan (ofSource source) span).markStart n
    let last := (Extent.ofSpan (ofSource source) span).markStop n l.text
    l.Underlined span first i ↔ first ≤ i ∧ i ≤ first + (last - first - 1) := by
  intro first last
  have hcovered (j : Nat) : l.Covered span j ↔ first ≤ j ∧ j < last :=
    Extent.covered_iff hstart hstop hl hcovers j
  simp only [Line.Underlined, hcovered]
  obtain hsome | hnone := Nat.lt_or_ge first last
  · constructor
    · rintro (hin | ⟨hall, rfl⟩)
      · omega
      · exact absurd ⟨Nat.le_refl _, hsome⟩ (hall _)
    · intro hin
      exact .inl (by omega)
  · constructor
    · rintro (hin | ⟨_, rfl⟩) <;> omega
    · intro hin
      exact .inr ⟨fun j => by omega, by omega⟩

end Extent

namespace Diagnostic

/-- The blocks of a snippet are as they should be. -/
theorem describes_block {d : Diagnostic} {source : String} (hle : d.span.start ≤ d.span.stop)
    (hstart : Boundary source d.span.start) (hstop : Boundary source d.span.stop)
    {b : Snippet.Block} (hb : b ∈ Snippet.blocks (ofSource source) (d.extent source)) :
    Snippet.Describes (ofSource source) d.span ((ofSource source).lineColumn d.span.start)
      ((ofSource source).lineColumn d.span.stop) b := by
  obtain ⟨l, hl, hblock⟩ := Snippet.exists_line_of_block hb
  have hcovers : (d.extent source).covers b.number ↔
      ((ofSource source).lineColumn d.span.start).1 ≤ b.number ∧
        b.number ≤ ((ofSource source).lineColumn d.span.stop).1 := by
    rw [Extent.covers, Bool.and_eq_true, decide_eq_true_eq, decide_eq_true_eq]
    rfl
  refine ⟨l, Snippet.blank (d.gutter source - (Nat.toDigits 10 b.number).length) ++
    Nat.toDigits 10 b.number ++ [' ', '|', ' '], hl, ⟨_, rfl⟩, ?_, fun hinside => ?_,
    fun houtside => ?_⟩
  · rw [congrArg Snippet.Block.source hblock, Snippet.block, gutter_extent hle]
    rfl
  · have hmargin : (Snippet.blank (d.gutter source - (Nat.toDigits 10 b.number).length) ++
        Nat.toDigits 10 b.number ++ [' ', '|', ' ']).length = d.gutter source + 3 := by
      have hwidth : (Nat.toDigits 10 b.number).length ≤ d.gutter source :=
        Number.length_toDigits_le hinside.2
      simp only [Snippet.blank, List.length_append, List.length_replicate, List.length_cons,
        List.length_nil]
      omega
    refine ⟨Snippet.markRow (d.extent source).gutter ((d.extent source).markStart b.number)
      ((d.extent source).markStop b.number l.text), ?_, ?_⟩
    · rw [congrArg Snippet.Block.mark? hblock, Snippet.block, if_pos (hcovers.mpr hinside)]
    · rw [hmargin, gutter_extent hle]
      exact (Snippet.marks_markRow ..).congr
        (Extent.underlined_iff hstart hstop hl (hcovers.mpr hinside))
  · rw [congrArg Snippet.Block.mark? hblock, Snippet.block, if_neg (mt hcovers.mp houtside)]

/-- The snippet of an error shows the lines of its span as they are, with one line before and one
behind where there are such lines. Below each line of the span, and below no other line, stands a
row that marks the characters that the span covers. Where it covers none, the row has a single mark,
at the place where the span starts or, on a later line, in the first column. -/
theorem snippet_underlines (d : Diagnostic) (source : String) (hle : d.span.start ≤ d.span.stop)
    (hstart : Boundary source d.span.start) (hstop : Boundary source d.span.stop) :
    let ix := ofSource source
    let first := ix.lineColumn d.span.start
    let last := ix.lineColumn d.span.stop
    d.Shows source (d.snippet source) ∧
      ∃ (width : Nat) (blocks : List Snippet.Block),
        d.snippet source =
          Snippet.barRow width :: blocks.flatMap Snippet.Block.rows ++ [Snippet.barRow width] ∧
        (blocks.Pairwise fun a b => a.number < b.number) ∧
        (∀ n, (∃ b ∈ blocks, b.number = n) ↔
          (1 ≤ n ∧ n ≤ ix.count) ∧ first.1 ≤ n + 1 ∧ n ≤ last.1 + 1) ∧
        ∀ b ∈ blocks, Snippet.Describes ix d.span first last b := by
  refine ⟨d.shows_snippet source, _, _, Snippet.rows_eq _ _, Snippet.pairwise_blocks _ _,
    fun n => ?_, fun b hb => describes_block hle hstart hstop hb⟩
  rw [Snippet.mem_blocks_iff, Extent.shows, Bool.and_eq_true, decide_eq_true_eq,
    decide_eq_true_eq]
  rfl

/-- The span starts inside a line break, covers a line with a character of two bytes, and ends where
an empty line starts. -/
theorem snippet_underlines_three_lines :
    let d := error .parse "m" ⟨2, 11⟩ "f"
    let source := "x\r\ny=\"é\";\n\nz"
    let rows := ["  |", "1 | x", "  |  ^", "2 | y=\"é\";", "  | ^~~~~~", "3 | ", "  | ^", "4 | z",
      "  |"].map String.toList
    d.span.start ≤ d.span.stop ∧ Boundary source d.span.start ∧ Boundary source d.span.stop ∧
      d.Shows source rows ∧ ∃ (width : Nat) (blocks : List Snippet.Block),
        rows = Snippet.barRow width :: blocks.flatMap Snippet.Block.rows ++ [Snippet.barRow width] ∧
        ∀ b ∈ blocks, Snippet.Describes (ofSource source) d.span (1, 2) (3, 1) b := by
  intro d source rows
  have hstart : Boundary source d.span.start :=
    boundary_iff.mpr ⟨"x\r".toList, "\ny=\"é\";\n\nz".toList, by decide, by decide⟩
  have hstop : Boundary source d.span.stop :=
    boundary_iff.mpr ⟨"x\r\ny=\"é\";\n".toList, "\nz".toList, by decide, by decide⟩
  have hrows : d.snippet source = rows := by decide +kernel
  have hfirst : (ofSource source).lineColumn d.span.start = (1, 2) := by decide +kernel
  have hlast : (ofSource source).lineColumn d.span.stop = (3, 1) := by decide +kernel
  obtain ⟨hshows, width, blocks, hsnippet, _, _, hblocks⟩ :=
    snippet_underlines d source (by decide) hstart hstop
  rw [hrows] at hshows hsnippet
  rw [hfirst, hlast] at hblocks
  exact ⟨by decide, hstart, hstop, hshows, width, blocks, hsnippet, hblocks⟩

end Diagnostic

end SolidScript
