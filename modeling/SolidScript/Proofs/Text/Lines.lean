import SolidScript.Proofs.Token.Tiling
import SolidScript.Text.Lines

namespace SolidScript

/-- The place between two parts of a text is not inside a line break. -/
def Seam (before after : List Char) : Prop :=
  before.getLast? = some '\r' → after.head? ≠ some '\n'

namespace Seam

variable {as bs cs : List Char}

theorem nil (bs : List Char) : Seam [] bs := nofun

theorem tail {c : Char} (h : Seam (c :: as) bs) : Seam as bs := by
  intro hlast
  apply h
  rw [List.getLast?_cons, hlast]
  rfl

/-- Whether two parts meet inside a line break, only their ends decide. -/
theorem append (hab : Seam as (bs ++ cs)) (hbc : Seam bs cs) : Seam (as ++ bs) cs := by
  cases bs with
  | nil => rwa [List.append_nil]
  | cons b bs =>
    intro hlast
    apply hbc
    rw [List.getLast?_append, List.getLast?_cons, Option.some_or] at hlast
    rw [List.getLast?_cons, hlast]

theorem left (hab : Seam as (bs ++ cs)) : Seam as bs := by
  intro hlast hhead
  apply hab hlast
  obtain ⟨rest, rfl⟩ := List.head?_eq_some_iff.mp hhead
  rfl

end Seam

/-- Where a lone carriage return ends a line, no line feed follows. -/
private theorem lone_append {as bs : List Char} (hseam : Seam ('\r' :: as) bs)
    (hlone : ∀ rest, as ≠ '\n' :: rest) : ∀ rest, as ++ bs ≠ '\n' :: rest := by
  intro rest heq
  cases as with
  | nil =>
    refine hseam rfl ?_
    rw [List.nil_append] at heq
    rw [heq]
    rfl
  | cons a as => exact hlone as (congrArg (· :: as) (List.cons.inj heq).1)

namespace Position

theorem advance_lone {cs : List Char} (h : ∀ rest, cs ≠ '\n' :: rest) (p : Position) :
    p.advance ('\r' :: cs) = (p.newline 1).advance cs := by
  rw [advance]
  exact h

theorem advance_plain {c : Char} (hreturn : c ≠ '\r') (hfeed : c ≠ '\n') (p : Position)
    (cs : List Char) :
    p.advance (c :: cs) = advance ⟨p.offset + c.utf8Size, p.line, p.column + 1⟩ cs := by
  rw [advance]
  · exact fun _ heq => absurd heq hreturn
  · exact hreturn
  · exact hfeed

/-- Moving on in two parts is moving on at once, unless a line break is torn apart. -/
theorem advance_append {p : Position} {as bs : List Char} (h : Seam as bs) :
    p.advance (as ++ bs) = (p.advance as).advance bs := by
  fun_induction advance p as with
  | case1 p => rfl
  | case2 p as ih => exact ih h.tail.tail
  | case3 p as hlone ih =>
    rw [List.cons_append, advance_lone (lone_append h hlone)]
    exact ih h.tail
  | case4 p as ih => exact ih h.tail
  | case5 p c as _ hreturn hfeed ih =>
    rw [List.cons_append, advance_plain hreturn hfeed]
    exact ih h.tail

end Position

namespace LineIndex

/-- The offset lies `line` lines behind the first one, with `column` characters of its line in front
of it. -/
structure At (ix : LineIndex) (offset line column : Nat) : Prop where
  line : (ix.rest.takeWhile (·.start ≤ offset)).length = line
  column : ∀ l, (ix.rest.takeWhile (·.start ≤ offset)).getLast?.getD ix.first = l →
    charsWithin? l.text (min offset l.stop - l.start) = some column

theorem At.lineColumn {ix : LineIndex} {offset line column : Nat} (h : ix.At offset line column) :
    ix.lineColumn offset = (line + 1, column + 1) := by
  simp only [LineIndex.lineColumn, columnIn, h.line, h.column _ rfl, Option.getD_some]

theorem splitFrom_first (start : Nat) (cs : List Char) :
    (splitFrom start cs).first.start = start := by
  fun_cases splitFrom start cs <;> rfl

theorem splitFrom_rest (start : Nat) (cs : List Char) :
    ∀ l ∈ (splitFrom start cs).rest, start < l.start := by
  fun_induction splitFrom start cs with
  | case1 start => nofun
  | case2 start cs ih | case3 start cs _ ih | case4 start cs ih =>
    intro l hl
    obtain rfl | hl := List.mem_cons.mp hl
    · rw [splitFrom_first]
      omega
    · have hlater := ih l hl
      omega
  | case5 start c cs _ _ _ ih =>
    intro l hl
    have hlater := ih l hl
    omega

/-- A text begins on its first line, in front of its first character. -/
theorem at_start (start : Nat) (cs : List Char) : (splitFrom start cs).At start 0 0 := by
  have hnone : (splitFrom start cs).rest.takeWhile (·.start ≤ start) = [] := by
    have hall := splitFrom_rest start cs
    cases hrest : (splitFrom start cs).rest with
    | nil => rfl
    | cons l rest =>
      rw [hrest] at hall
      have hlater := hall l List.mem_cons_self
      exact List.takeWhile_cons_of_neg (by simpa using hlater)
  refine ⟨by rw [hnone]; rfl, ?_⟩
  rintro l rfl
  rw [hnone]
  have hzero :
      min start (splitFrom start cs).first.stop - (splitFrom start cs).first.start = 0 := by
    rw [splitFrom_first]
    omega
  simp only [List.getLast?_nil, Option.getD_none, hzero, charsWithin?]

section Steps

variable {ix : LineIndex} {offset line column : Nat}

theorem At.addLine (h : ix.At offset line column) (hstart : ix.first.start ≤ offset) (l : Line) :
    (LineIndex.addLine l ix).At offset (line + 1) column := by
  have htaken : (LineIndex.addLine l ix).rest.takeWhile (·.start ≤ offset) =
      ix.first :: ix.rest.takeWhile (·.start ≤ offset) := by
    rw [LineIndex.addLine, List.takeWhile_cons_of_pos (by simpa using hstart)]
  refine ⟨by rw [htaken, List.length_cons, h.line], ?_⟩
  rintro found rfl
  rw [htaken, List.getLast?_cons, Option.getD_some]
  exact h.column _ rfl

theorem charsWithin?_cons (c : Char) (cs : List Char) (n : Nat) :
    charsWithin? (c :: cs) (c.utf8Size + n) = (charsWithin? cs n).map (· + 1) := by
  have hpos := c.utf8Size_pos
  obtain ⟨k, hk⟩ : ∃ k, c.utf8Size + n = k + 1 := ⟨c.utf8Size + n - 1, by omega⟩
  have hrest : k + 1 - c.utf8Size = n := by omega
  rw [hk, charsWithin?, if_pos (by omega), hrest]

/-- A character in front moves only the places on its own line. -/
theorem At.addChar {start : Nat} {c : Char} (h : ix.At offset line column)
    (hfirst : ix.first.start = start + c.utf8Size) (hstart : ix.first.start ≤ offset) :
    (LineIndex.addChar start c ix).At offset line (if line = 0 then column + 1 else column) := by
  refine ⟨h.line, ?_⟩
  rintro found rfl
  have hline := h.line
  have hcolumn := h.column _ rfl
  simp only [LineIndex.addChar]
  generalize ix.rest.takeWhile (·.start ≤ offset) = started at hline hcolumn ⊢
  cases started with
  | nil =>
    have hbytes : min offset (Line.stop ⟨start, c :: ix.first.text⟩) - start =
        c.utf8Size + (min offset ix.first.stop - ix.first.start) := by
      simp only [Line.stop, byteLength_cons]
      omega
    rw [List.length_nil] at hline
    rw [List.getLast?_nil, Option.getD_none] at hcolumn ⊢
    rw [hbytes, charsWithin?_cons, hcolumn, if_pos hline.symm, Option.map_some]
  | cons l started =>
    rw [List.getLast?_cons, Option.getD_some] at hcolumn ⊢
    rw [if_neg (by rw [← hline]; simp)]
    exact hcolumn

end Steps

/-- Looking up `q` in lines that begin at `p` gives what `q` says; on the first of them, columns go
on from that of `p`. -/
def Counts (ix : LineIndex) (p q : Position) : Prop :=
  ∃ line column, ix.At q.offset line column ∧ q.line = p.line + line ∧
    q.column = if line = 0 then p.column + column else column + 1

theorem Counts.addLine {ix : LineIndex} {p q : Position} {width : Nat}
    (h : ix.Counts (p.newline width) q) (hstart : ix.first.start ≤ q.offset) (l : Line) :
    (LineIndex.addLine l ix).Counts p q := by
  obtain ⟨line, column, hat, hline, hcolumn⟩ := h
  simp only [Position.newline] at hline hcolumn
  refine ⟨line + 1, column, hat.addLine hstart l, by omega, ?_⟩
  rw [hcolumn, if_neg (Nat.succ_ne_zero line)]
  split <;> omega

theorem Counts.addChar {ix : LineIndex} {p q : Position} {c : Char}
    (h : ix.Counts ⟨p.offset + c.utf8Size, p.line, p.column + 1⟩ q)
    (hfirst : ix.first.start = p.offset + c.utf8Size) (hstart : ix.first.start ≤ q.offset) :
    (LineIndex.addChar p.offset c ix).Counts p q := by
  obtain ⟨line, column, hat, hline, hcolumn⟩ := h
  refine ⟨line, _, hat.addChar hfirst hstart, hline, ?_⟩
  rw [hcolumn]
  by_cases hzero : line = 0
  · simp only [if_pos hzero]
    omega
  · simp only [if_neg hzero]

/-- Splitting a text and looking up the place behind its first part gives what moving on over that
part gives. -/
theorem splitFrom_counts {p : Position} {before after : List Char} (h : Seam before after) :
    (splitFrom p.offset (before ++ after)).Counts p (p.advance before) := by
  have hstart (q : Position) (before : List Char) :
      (splitFrom q.offset (before ++ after)).first.start ≤ (q.advance before).offset := by
    rw [splitFrom_first, Position.advance_offset]
    omega
  fun_induction Position.advance p before with
  | case1 p => exact ⟨0, 0, at_start _ _, rfl, rfl⟩
  | case2 p before ih =>
    rw [List.cons_append, List.cons_append, splitFrom]
    exact (ih h.tail.tail).addLine (hstart (p.newline 2) before) _
  | case3 p before hlone ih =>
    rw [List.cons_append, splitFrom]
    · exact (ih h.tail).addLine (hstart (p.newline 1) before) _
    · exact lone_append h hlone
  | case4 p before ih =>
    rw [List.cons_append, splitFrom]
    exact (ih h.tail).addLine (hstart (p.newline 1) before) _
  | case5 p c before _ hreturn hfeed ih =>
    rw [List.cons_append, splitFrom]
    · exact (ih h.tail).addChar (splitFrom_first _ _) (hstart ⟨_, _, _⟩ before)
    · exact fun _ heq => absurd heq hreturn
    · exact hreturn
    · exact hfeed

/-- The two ways of counting agree. -/
theorem lineColumn_advance {source : String} {before after : List Char}
    (hsource : source.toList = before ++ after) (h : Seam before after) :
    (ofSource source).lineColumn (Position.start.advance before).offset =
      ((Position.start.advance before).line, (Position.start.advance before).column) := by
  obtain ⟨line, column, hat, hline, hcolumn⟩ := splitFrom_counts (p := Position.start) h
  have hboth : (splitFrom 0 (before ++ after)).lineColumn (Position.start.advance before).offset =
      (line + 1, column + 1) := hat.lineColumn
  rw [ofSource, hsource, hboth, hline, hcolumn]
  simp only [Position.start]
  split <;> simp [Nat.add_comm]

end LineIndex

end SolidScript
