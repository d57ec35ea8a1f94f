import SolidScript.Proofs.Diagnostic.Snippet

namespace SolidScript

open LineIndex

namespace LineIndex

/-- Offsets in order are on lines in order. -/
theorem line_mono {source : String} {o₁ o₂ : Nat} (hle : o₁ ≤ o₂) :
    ((ofSource source).lineColumn o₁).1 ≤ ((ofSource source).lineColumn o₂).1 := by
  obtain ⟨a, ha⟩ := exists_lastStarted source o₁
  obtain ⟨b, hb⟩ := exists_lastStarted source o₂
  by_contra hgt
  have hlater := hb.later _ a (Nat.lt_of_not_le hgt) ha.line
  have hstart := ha.start_le
  omega

end LineIndex

namespace Diagnostic

variable {d : Diagnostic} {source : String}

/-- The number of the last line that the span touches. -/
def lastLine (d : Diagnostic) (source : String) : Nat :=
  ((ofSource source).lineColumn d.span.stop).1

/-- How many digits that number has. -/
def gutter (d : Diagnostic) (source : String) : Nat :=
  (Nat.toDigits 10 (d.lastLine source)).length

/-- The line behind the span is there, and its number has one digit more than the last one of the
span. -/
def Outgrown (d : Diagnostic) (source : String) : Prop :=
  d.lastLine source < (ofSource source).count ∧ ∃ k, d.lastLine source + 1 = 10 ^ k

theorem gutter_extent (hle : d.span.start ≤ d.span.stop) :
    (d.extent source).gutter = d.gutter source := by
  have hmax : max (d.extent source).stopLine (d.extent source).startLine = d.lastLine source :=
    Nat.max_eq_left (line_mono hle)
  rw [Extent.gutter, hmax, gutter]

theorem lastLine_pos : 0 < d.lastLine source := by
  obtain ⟨l, hl⟩ := exists_lastStarted source d.span.stop
  refine Nat.pos_of_ne_zero fun hzero => ?_
  have hline := hl.line
  change (ofSource source).line? (d.lastLine source) = some l at hline
  rw [hzero] at hline
  cases hline

theorem barAt_barRow (hle : d.span.start ≤ d.span.stop) :
    Snippet.BarAt (Snippet.barRow (d.extent source).gutter) (d.gutter source + 1) := by
  rw [gutter_extent hle]
  exact Snippet.barAt_barRow _

/-- The rows of all blocks but that of a wider number are in line. -/
theorem barAt_block (hle : d.span.start ≤ d.span.stop) {b : Snippet.Block}
    (hb : b ∈ Snippet.blocks (ofSource source) (d.extent source))
    (hnumber : b.number = d.lastLine source + 1 → ¬d.Outgrown source) :
    ∀ row ∈ b.rows, Snippet.BarAt row (d.gutter source + 1) := by
  obtain ⟨⟨_, hcount⟩, hshows⟩ := Snippet.mem_blocks_iff.mp ⟨b, hb, rfl⟩
  obtain ⟨l, _, hblock⟩ := Snippet.exists_line_of_block hb
  have hlast : b.number ≤ d.lastLine source + 1 := by
    simp only [Extent.shows, Bool.and_eq_true, decide_eq_true_eq] at hshows
    exact hshows.2
  have hwidth : (Nat.toDigits 10 b.number).length ≤ d.gutter source := by
    obtain hinside | hbehind := Nat.lt_or_eq_of_le hlast
    · exact Number.length_toDigits_le (Nat.le_of_lt_succ hinside)
    · obtain ⟨_, hpower⟩ | ⟨hsame, _⟩ :=
        Number.length_toDigits_succ (lastLine_pos : 0 < d.lastLine source)
      · exact absurd ⟨by omega, hpower⟩ (hnumber hbehind)
      · rw [hbehind, hsame, gutter]
  rw [hblock, ← gutter_extent hle]
  exact Snippet.barAt_block (by rwa [gutter_extent hle])

/-- Without a wider number all rows are in line. -/
theorem barAt_snippet (hle : d.span.start ≤ d.span.stop) (hfits : ¬d.Outgrown source) :
    ∀ row ∈ d.snippet source, Snippet.BarAt row (d.gutter source + 1) := by
  intro row hrow
  rw [snippet, Snippet.rows_eq, List.mem_append, List.mem_cons, List.mem_singleton,
    List.mem_flatMap] at hrow
  obtain (rfl | ⟨b, hb, hrow⟩) | rfl := hrow
  · exact barAt_barRow hle
  · exact barAt_block hle hb (fun _ => hfits) row hrow
  · exact barAt_barRow hle

/-- A wider number puts its row, and only that one, out of line. -/
theorem snippet_of_outgrown (hle : d.span.start ≤ d.span.stop) (houtgrown : d.Outgrown source) :
    ∃ above row below, d.snippet source = above ++ row :: below ∧
      Snippet.BarAt row (d.gutter source + 2) ∧
      ∀ other ∈ above ++ below, Snippet.BarAt other (d.gutter source + 1) := by
  obtain ⟨hcount, hpower⟩ := houtgrown
  have hcovers : (d.extent source).covers (d.lastLine source + 1) = false := by
    simp only [Extent.covers, Bool.and_eq_false_iff, decide_eq_false_iff_not]
    exact .inr (Nat.not_succ_le_self _)
  have hshows : (d.extent source).shows (d.lastLine source + 1) := by
    have hlines : ((ofSource source).lineColumn d.span.start).1 ≤ d.lastLine source := line_mono hle
    simp only [Extent.shows, Bool.and_eq_true, decide_eq_true_eq]
    exact ⟨Nat.le_add_right_of_le (Nat.le_add_right_of_le hlines), Nat.le_refl _⟩
  obtain ⟨b, hb, hnumber⟩ := Snippet.mem_blocks_iff.mpr ⟨⟨by omega, hcount⟩, hshows⟩
  obtain ⟨l, _, hblock⟩ := Snippet.exists_line_of_block hb
  obtain ⟨as, bs, hsplit⟩ := List.append_of_mem hb
  have hrows : b.rows = [Snippet.sourceRow (d.gutter source) (d.lastLine source + 1) l.text] := by
    rw [hblock, hnumber, Snippet.block, Snippet.Block.rows, hcovers, gutter_extent hle]
    rfl
  let bar := Snippet.barRow (d.extent source).gutter
  refine ⟨bar :: as.flatMap Snippet.Block.rows,
    Snippet.sourceRow (d.gutter source) (d.lastLine source + 1) l.text,
    bs.flatMap Snippet.Block.rows ++ [bar], ?_, ?_, ?_⟩
  · rw [snippet, Snippet.rows_eq, hsplit, List.flatMap_append, List.flatMap_cons, hrows]
    simp [bar]
  · have hbar := Snippet.barAt_sourceRow (d.gutter source) (d.lastLine source + 1) l.text
    obtain ⟨hmore, _⟩ | ⟨_, hnone⟩ :=
      Number.length_toDigits_succ (lastLine_pos : 0 < d.lastLine source)
    · rwa [hmore, gutter, Nat.max_eq_right (Nat.le_succ _)] at hbar
    · exact absurd hpower hnone
  · intro other hother
    have hothers : other = bar ∨ ∃ a ∈ as ++ bs, other ∈ a.rows := by
      simp only [List.mem_append, List.mem_cons, List.mem_flatMap, List.not_mem_nil,
        or_false] at hother ⊢
      obtain (hbar | ⟨a, ha, hrow⟩) | ⟨a, ha, hrow⟩ | hbar := hother
      · exact .inl hbar
      · exact .inr ⟨a, .inl ha, hrow⟩
      · exact .inr ⟨a, .inr ha, hrow⟩
      · exact .inl hbar
    obtain rfl | ⟨a, ha, hrow⟩ := hothers
    · exact barAt_barRow hle
    · have hmem : a ∈ Snippet.blocks (ofSource source) (d.extent source) := by
        rw [hsplit, List.mem_append, List.mem_cons]
        exact (List.mem_append.mp ha).imp_right .inr
      refine barAt_block hle hmem (fun hsame => absurd ?_ (Snippet.block_unique hsplit ha)) _ hrow
      rw [hsame, hnumber]

/-- The bars of a snippet are in one column, unless the line behind the span is there and its number
has a digit more than that of the span's last line. Then the row of that line has its bar one column
further on, and all other rows are in line. -/
theorem snippet_aligned_iff (d : Diagnostic) (source : String)
    (hle : d.span.start ≤ d.span.stop) :
    d.Shows source (d.snippet source) ∧
      (Snippet.Aligned (d.snippet source) ↔ ¬d.Outgrown source) ∧
      (d.Outgrown source → ∃ above row below, d.snippet source = above ++ row :: below ∧
        Snippet.BarAt row (d.gutter source + 2) ∧
        ∀ other ∈ above ++ below, Snippet.BarAt other (d.gutter source + 1)) := by
  refine ⟨d.shows_snippet source, ⟨?_, fun hfits => ⟨_, barAt_snippet hle hfits⟩⟩,
    snippet_of_outgrown hle⟩
  rintro ⟨column, haligned⟩ houtgrown
  obtain ⟨above, row, below, hrows, hrow, _⟩ := snippet_of_outgrown hle houtgrown
  have hfirst : Snippet.barRow (d.extent source).gutter ∈ d.snippet source := by
    rw [snippet, Snippet.rows_eq]
    exact List.mem_append_left _ List.mem_cons_self
  have hbar := (haligned _ hfirst).idxOf.symm.trans (barAt_barRow hle).idxOf
  have hwide := (haligned row (by simp [hrows])).idxOf.symm.trans hrow.idxOf
  omega

/-- The span is in the tenth of eleven lines. The number of the line in front of it is narrower. -/
theorem snippet_aligned_iff_tenth_line :
    Snippet.Aligned ((error .parse "m" ⟨18, 19⟩ "f").snippet
      "a\nb\nc\nd\ne\nf\ng\nh\ni\nj\nk") := by
  obtain ⟨_, haligned, _⟩ := snippet_aligned_iff (error .parse "m" ⟨18, 19⟩ "f")
    "a\nb\nc\nd\ne\nf\ng\nh\ni\nj\nk" (by decide)
  refine haligned.mpr fun ⟨_, k, hpower⟩ => ?_
  have hline : (error .parse "m" ⟨18, 19⟩ "f").lastLine "a\nb\nc\nd\ne\nf\ng\nh\ni\nj\nk" = 10 := by
    decide +kernel
  rw [hline] at hpower
  cases k with
  | zero => cases hpower
  | succ k => omega

/-- The span is in the ninth of ten lines. The bar of the tenth line is out of line. -/
theorem not_aligned_ninth_line :
    let rows := ["  |", "8 | h", "9 | i", "  | ^", "10 | j", "  |"].map String.toList
    (error .parse "m" ⟨16, 17⟩ "f").Shows "a\nb\nc\nd\ne\nf\ng\nh\ni\nj" rows ∧
      ¬Snippet.Aligned rows := by
  intro rows
  have hrows : (error .parse "m" ⟨16, 17⟩ "f").snippet "a\nb\nc\nd\ne\nf\ng\nh\ni\nj" = rows := by
    decide +kernel
  refine ⟨hrows ▸ shows_snippet _ _, ?_⟩
  rintro ⟨column, haligned⟩
  have hnarrow := (haligned "9 | i".toList (by decide)).idxOf
  have hwide := (haligned "10 | j".toList (by decide)).idxOf
  exact absurd (hnarrow.trans hwide.symm) (by decide)

end Diagnostic

end SolidScript
