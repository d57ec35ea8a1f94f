import SolidScript.Span
import SolidScript.Text.Position

namespace SolidScript

/-- One line of a text without its terminator, and the byte offset at which it starts. -/
structure Line where
  start : Nat
  text : List Char
deriving DecidableEq, Inhabited

/-- The offset behind the last character of the line. -/
def Line.stop (l : Line) : Nat := l.start + byteLength l.text

/-- The byte range of the line, terminator excluded. -/
def Line.span (l : Line) : Span := ⟨l.start, l.stop⟩

/-- The lines of a text, of which there is at least one. -/
structure LineIndex where
  first : Line
  rest : List Line
deriving Inhabited

namespace LineIndex

/-- Puts a line in front of all others. -/
def addLine (l : Line) (ix : LineIndex) : LineIndex := ⟨l, ix.first :: ix.rest⟩

/-- Puts a character in front of the first line, which then starts at `start`. -/
def addChar (start : Nat) (c : Char) (ix : LineIndex) : LineIndex :=
  ⟨⟨start, c :: ix.first.text⟩, ix.rest⟩

/-- Splits a text of which the first character has the byte offset `start`. -/
def splitFrom (start : Nat) : List Char → LineIndex
  | [] => ⟨⟨start, []⟩, []⟩
  | '\r' :: '\n' :: cs => addLine ⟨start, []⟩ (splitFrom (start + 2) cs)
  | '\r' :: cs => addLine ⟨start, []⟩ (splitFrom (start + 1) cs)
  | '\n' :: cs => addLine ⟨start, []⟩ (splitFrom (start + 1) cs)
  | c :: cs => addChar start c (splitFrom (start + c.utf8Size) cs)

/-- The lines of a source text. -/
def ofSource (source : String) : LineIndex := splitFrom 0 source.toList

/-- All lines in order. -/
def lines (ix : LineIndex) : List Line := ix.first :: ix.rest

/-- The number of lines. -/
def count (ix : LineIndex) : Nat := ix.lines.length

/-- The line of the given number, counted from one. -/
def line? (ix : LineIndex) : Nat → Option Line
  | 0 => none
  | n + 1 => ix.lines[n]?

/-- All lines with their numbers. -/
def numbered (ix : LineIndex) : List (Nat × Line) := (List.range' 1 ix.count).zip ix.lines

/-- How many characters the first `n` bytes hold, unless they end inside a character or behind the
text. -/
def charsWithin? : List Char → Nat → Option Nat
  | _, 0 => some 0
  | [], _ + 1 => none
  | c :: cs, n + 1 =>
    if c.utf8Size ≤ n + 1 then (charsWithin? cs (n + 1 - c.utf8Size)).map (· + 1) else none

/-- The column, counted from one, of a byte offset within a line. An offset behind the line stands
just past its last character; one inside a character is counted in bytes. -/
def columnIn (l : Line) (offset : Nat) : Nat :=
  let bytes := min offset l.stop - l.start
  (charsWithin? l.text bytes).getD bytes + 1

/-- The line and the column, both counted from one, of a byte offset: the last line that starts at
or before it, and the place there. -/
def lineColumn (ix : LineIndex) (offset : Nat) : Nat × Nat :=
  let started := ix.rest.takeWhile (·.start ≤ offset)
  (started.length + 1, columnIn (started.getLast?.getD ix.first) offset)

end LineIndex

end SolidScript
