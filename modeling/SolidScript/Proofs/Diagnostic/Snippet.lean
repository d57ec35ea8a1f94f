import Mathlib.Data.List.Nodup
import SolidScript.Diagnostic
import SolidScript.Proofs.Number.Digits
import SolidScript.Proofs.Text.Offsets

namespace SolidScript

section Digits

theorem unbroken_toDigits (n : Nat) : Unbroken (Nat.toDigits 10 n) := by
  intro c hc
  have hdigit := Nat.isDigit_of_mem_toDigits (by decide) (by decide) hc
  constructor <;> rintro rfl <;> cases hdigit

theorem bar_not_mem_toDigits (n : Nat) : '|' ∉ Nat.toDigits 10 n := by
  intro hmem
  cases Nat.isDigit_of_mem_toDigits (by decide) (by decide) hmem

end Digits

namespace Snippet

/-- What is shown of a line: its number, its row, and the row with the underline if there is one. -/
structure Block where
  number : Nat
  source : List Char
  mark? : Option (List Char)

/-- The rows of a block. -/
def Block.rows (b : Block) : List (List Char) := b.source :: b.mark?.toList

/-- The block for a line. -/
def block (e : Extent) (number : Nat) (l : Line) : Block where
  number := number
  source := sourceRow e.gutter number l.text
  mark? := if e.covers number then
      some (markRow e.gutter (e.markStart number) (e.markStop number l.text))
    else none

/-- The blocks of a snippet, in the order of the lines. -/
def blocks (ix : LineIndex) (e : Extent) : List Block :=
  (ix.numbered.filter fun (number, _) => e.shows number).map fun (number, l) => block e number l

theorem rowsFor_eq (e : Extent) (number : Nat) (l : Line) :
    rowsFor e number l = (block e number l).rows := by
  unfold rowsFor block Block.rows
  split <;> rfl

theorem rows_eq (ix : LineIndex) (e : Extent) :
    rows ix e = barRow e.gutter :: (blocks ix e).flatMap Block.rows ++ [barRow e.gutter] := by
  simp only [rows, blocks, rowsFor_eq, List.flatMap_map]

theorem map_number_blocks (ix : LineIndex) (e : Extent) :
    (blocks ix e).map Block.number = (List.range' 1 ix.count).filter e.shows := by
  have hnumbers : ix.numbered.map Prod.fst = List.range' 1 ix.count := by
    rw [LineIndex.numbered, List.map_fst_zip]
    simp [LineIndex.count]
  rw [← hnumbers, List.filter_map, blocks, List.map_map]
  rfl

theorem exists_line_of_block {ix : LineIndex} {e : Extent} {b : Block} (hb : b ∈ blocks ix e) :
    ∃ l, ix.line? b.number = some l ∧ b = block e b.number l := by
  obtain ⟨⟨n, l⟩, hmem, rfl⟩ := List.mem_map.mp hb
  obtain ⟨i, hi, hpair⟩ := List.mem_iff_getElem.mp (List.mem_filter.mp hmem).1
  simp only [LineIndex.numbered, List.getElem_zip, List.getElem_range', Prod.mk.injEq] at hpair
  obtain ⟨rfl, rfl⟩ := hpair
  refine ⟨_, ?_, rfl⟩
  simp only [block, Nat.one_mul, Nat.add_comm 1]
  exact List.getElem?_eq_getElem _

/-- Each line that is shown has one block. -/
theorem block_unique {ix : LineIndex} {e : Extent} {as bs : List Block} {a b : Block}
    (hsplit : blocks ix e = as ++ b :: bs) (ha : a ∈ as ++ bs) : a.number ≠ b.number := by
  have hdistinct : ((blocks ix e).map Block.number).Nodup := by
    rw [map_number_blocks]
    exact (List.nodup_range' ..).filter _
  rw [hsplit, List.map_append, List.map_cons, List.nodup_middle, List.nodup_cons,
    ← List.map_append] at hdistinct
  intro hsame
  exact hdistinct.1 (hsame ▸ List.mem_map_of_mem ha)

theorem mem_blocks_iff {ix : LineIndex} {e : Extent} {n : Nat} :
    (∃ b ∈ blocks ix e, b.number = n) ↔ (1 ≤ n ∧ n ≤ ix.count) ∧ e.shows n := by
  rw [← List.mem_map, map_number_blocks, List.mem_filter, List.mem_range'_1]
  exact and_congr_left fun _ => by omega

section Bars

/-- The bar of a row, which is the first one in it, stands behind `column` characters. -/
def BarAt (row : List Char) (column : Nat) : Prop :=
  ∃ front back, row = front ++ '|' :: back ∧ '|' ∉ front ∧ front.length = column

theorem BarAt.idxOf {row : List Char} {column : Nat} (h : BarAt row column) :
    row.idxOf '|' = column := by
  obtain ⟨front, back, rfl, hfront, rfl⟩ := h
  rw [List.idxOf_append_of_notMem hfront, List.idxOf_cons_self, Nat.add_zero]

/-- The rows have their bars in one column. -/
def Aligned (rows : List (List Char)) : Prop := ∃ column, ∀ row ∈ rows, BarAt row column

theorem bar_not_mem_blank (width : Nat) : '|' ∉ blank width :=
  fun hmem => absurd (List.eq_of_mem_replicate hmem) (by decide)

theorem barAt_blank (width : Nat) (back : List Char) :
    BarAt (blank width ++ ' ' :: '|' :: back) (width + 1) :=
  ⟨blank (width + 1), back, by simp [blank, List.replicate_succ'], bar_not_mem_blank _,
    List.length_replicate ..⟩

theorem barAt_barRow (width : Nat) : BarAt (barRow width) (width + 1) := barAt_blank width []

theorem barAt_markRow (width start stop : Nat) : BarAt (markRow width start stop) (width + 1) := by
  have hbar := barAt_blank width
    (' ' :: (blank start ++ '^' :: List.replicate (stop - start - 1) '~'))
  simpa [markRow] using hbar

theorem barAt_sourceRow (width number : Nat) (text : List Char) :
    BarAt (sourceRow width number text) (max width (Nat.toDigits 10 number).length + 1) := by
  refine ⟨blank (width - (Nat.toDigits 10 number).length) ++ (Nat.toDigits 10 number ++ [' ']),
    ' ' :: text, by simp [sourceRow], ?_, ?_⟩
  · simp [bar_not_mem_blank, bar_not_mem_toDigits]
  · simp only [blank, List.length_append, List.length_replicate, List.length_cons, List.length_nil]
    omega

/-- The rows of a block have their bars behind the gutter, unless the number is too wide for it. -/
theorem barAt_block {e : Extent} {number : Nat} {l : Line}
    (hwidth : (Nat.toDigits 10 number).length ≤ e.gutter) :
    ∀ row ∈ (block e number l).rows, BarAt row (e.gutter + 1) := by
  intro row hrow
  obtain rfl | hmark := List.mem_cons.mp hrow
  · have hbar := barAt_sourceRow e.gutter number l.text
    rwa [Nat.max_eq_left hwidth] at hbar
  · simp only [block, Option.mem_toList, Option.ite_none_right_eq_some,
      Option.some.injEq] at hmark
    obtain ⟨_, rfl⟩ := hmark
    exact barAt_markRow ..

end Bars

section Characters

theorem unbroken_barRow (width : Nat) : Unbroken (barRow width) := by
  intro c hc
  simp only [barRow, blank, List.mem_append, List.mem_replicate, List.mem_cons,
    List.not_mem_nil, or_false] at hc
  obtain ⟨_, rfl⟩ | rfl | rfl := hc <;> decide

theorem unbroken_markRow (width start stop : Nat) : Unbroken (markRow width start stop) := by
  intro c hc
  simp only [markRow, blank, List.mem_append, List.mem_replicate, List.mem_cons,
    List.not_mem_nil, or_false] at hc
  obtain ((⟨_, rfl⟩ | rfl | rfl | rfl) | ⟨_, rfl⟩) | rfl | ⟨_, rfl⟩ := hc <;> decide

theorem unbroken_sourceRow (width number : Nat) {text : List Char} (htext : Unbroken text) :
    Unbroken (sourceRow width number text) := by
  intro c hc
  simp only [sourceRow, blank, List.mem_append, List.mem_replicate, List.mem_cons,
    List.not_mem_nil, or_false] at hc
  obtain ((⟨_, rfl⟩ | hdigit) | rfl | rfl | rfl) | hmem := hc
  · decide
  · exact unbroken_toDigits number c hdigit
  · decide
  · decide
  · decide
  · exact htext c hmem

theorem unbroken_row {source : String} {e : Extent} {row : List Char}
    (hrow : row ∈ rows (LineIndex.ofSource source) e) : Unbroken row := by
  rw [rows_eq, List.mem_append, List.mem_cons, List.mem_singleton, List.mem_flatMap] at hrow
  obtain (rfl | ⟨b, hb, hrow⟩) | rfl := hrow
  · exact unbroken_barRow _
  · obtain ⟨l, hl, heq⟩ := exists_line_of_block hb
    rw [heq] at hrow
    obtain rfl | hmark := List.mem_cons.mp hrow
    · obtain ⟨_, _, _, _, htext⟩ :=
        (LineIndex.ofSource_tiles source).exists_split (LineIndex.mem_of_line? hl)
      exact unbroken_sourceRow _ _ htext
    · simp only [block, Option.mem_toList, Option.ite_none_right_eq_some,
        Option.some.injEq] at hmark
      obtain ⟨_, rfl⟩ := hmark
      exact unbroken_markRow _ _ _
  · exact unbroken_barRow _

end Characters

end Snippet

/-- The text with a row on each line. -/
def unlines (rows : List String) : String := String.join (rows.map (· ++ "\n"))

namespace Diagnostic

/-- Where the span of the error lies. -/
def extent (d : Diagnostic) (source : String) : Extent :=
  Extent.ofSpan (LineIndex.ofSource source) d.span

/-- The rows of the snippet. -/
def snippet (d : Diagnostic) (source : String) : List (List Char) :=
  Snippet.rows (LineIndex.ofSource source) (d.extent source)

/-- What there is to say below the snippet. -/
def remarks (d : Diagnostic) : List String :=
  d.notes.map ("note: " ++ ·) ++ d.help?.toList.map ("help: " ++ ·) ++
    d.suggestions.map ("suggestion: " ++ ·)

/-- Between the header and the remarks of the rendered error stand the rows, each on a line of its
own. -/
structure Shows (d : Diagnostic) (source : String) (rows : List (List Char)) : Prop where
  render : d.render source = unlines (["error: " ++ d.message, d.header (d.extent source)] ++
    rows.map String.ofList ++ d.remarks)
  unbroken : ∀ row ∈ rows, Unbroken row

theorem shows_snippet (d : Diagnostic) (source : String) : d.Shows source (d.snippet source) where
  render := by
    simp only [render, remarks, snippet, extent, unlines, List.append_assoc]
  unbroken _ := Snippet.unbroken_row

end Diagnostic

end SolidScript
