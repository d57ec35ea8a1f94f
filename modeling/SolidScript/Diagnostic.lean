import SolidScript.Text.Lines

namespace SolidScript

/-- Which part of a run an error comes from. -/
inductive Origin where
  | parse
  | runtime
deriving DecidableEq, Inhabited

/-- The name of the part as shown to users. -/
def Origin.label : Origin → String
  | .parse => "parse"
  | .runtime => "runtime"

/-- An error with its place and all that is to be said about it. -/
structure Diagnostic where
  origin : Origin
  message : String
  span : Span
  file : String
  notes : List String
  help? : Option String
  suggestions : List String

namespace Diagnostic

/-- An error about which nothing more is said. -/
def error (origin : Origin) (message : String) (span : Span) (file : String) : Diagnostic :=
  ⟨origin, message, span, file, [], none, []⟩

/-- Adds a note. -/
def withNote (d : Diagnostic) (note : String) : Diagnostic := { d with notes := d.notes ++ [note] }

/-- Says what would help; there is only one such line. -/
def withHelp (d : Diagnostic) (help : String) : Diagnostic := { d with help? := some help }

/-- Adds a suggestion. -/
def withSuggestion (d : Diagnostic) (suggestion : String) : Diagnostic :=
  { d with suggestions := d.suggestions ++ [suggestion] }

/-- The error on one line, with the byte offsets of its span. -/
def brief (d : Diagnostic) : String :=
  d.origin.label ++ " error: " ++ d.message ++ " at " ++ d.file ++ ":" ++ d.span.start.repr ++
    ":" ++ d.span.stop.repr

end Diagnostic

/-- The lines and columns at which a span starts and ends, both counted from one. -/
structure Extent where
  startLine : Nat
  startColumn : Nat
  stopLine : Nat
  stopColumn : Nat
deriving DecidableEq

namespace Extent

/-- Where a span lies in a text. -/
def ofSpan (ix : LineIndex) (span : Span) : Extent :=
  let (startLine, startColumn) := ix.lineColumn span.start
  let (stopLine, stopColumn) := ix.lineColumn span.stop
  ⟨startLine, startColumn, stopLine, stopColumn⟩

/-- Whether the span touches a line. -/
def covers (e : Extent) (line : Nat) : Bool := e.startLine ≤ line && line ≤ e.stopLine

/-- How many digits the number of the last line has. -/
def gutter (e : Extent) : Nat := (Nat.toDigits 10 (max e.stopLine e.startLine)).length

/-- Whether a line is shown: those of the span are, and one before and one behind it. -/
def shows (e : Extent) (line : Nat) : Bool := e.startLine ≤ line + 1 && line ≤ e.stopLine + 1

/-- How many characters of a line stand before the underline. -/
def markStart (e : Extent) (line : Nat) : Nat := if line = e.startLine then e.startColumn - 1 else 0

/-- How many characters of a line stand before the end of the underline. -/
def markStop (e : Extent) (line : Nat) (text : List Char) : Nat :=
  if line = e.stopLine then e.stopColumn - 1 else text.length

end Extent

namespace Snippet

/-- The empty part of a row in front of the bar. -/
def blank (width : Nat) : List Char := List.replicate width ' '

/-- A row with nothing but the bar. -/
def barRow (width : Nat) : List Char := blank width ++ [' ', '|']

/-- A row with a line of the source. -/
def sourceRow (width line : Nat) (text : List Char) : List Char :=
  let digits := Nat.toDigits 10 line
  blank (width - digits.length) ++ digits ++ [' ', '|', ' '] ++ text

/-- A row with an underline of at least one character. -/
def markRow (width start stop : Nat) : List Char :=
  blank width ++ [' ', '|', ' '] ++ blank start ++ '^' :: List.replicate (stop - start - 1) '~'

/-- The rows for one line: the line itself, and the underline if the span touches it. -/
def rowsFor (e : Extent) (number : Nat) (line : Line) : List (List Char) :=
  let source := sourceRow e.gutter number line.text
  if e.covers number then
    [source, markRow e.gutter (e.markStart number) (e.markStop number line.text)]
  else [source]

/-- All rows of a snippet. -/
def rows (ix : LineIndex) (e : Extent) : List (List Char) :=
  let shown := ix.numbered.filter fun (number, _) => e.shows number
  barRow e.gutter :: shown.flatMap (fun (number, line) => rowsFor e number line) ++
    [barRow e.gutter]

end Snippet

namespace Diagnostic

/-- The place of the error, as shown to users. -/
def header (d : Diagnostic) (e : Extent) : String :=
  "  --> " ++ d.file ++ ":" ++ e.startLine.repr ++ ":" ++ e.startColumn.repr

/-- The error in full: what happened, where, the lines concerned, and what else there is to say. -/
def render (d : Diagnostic) (source : String) : String :=
  let ix := LineIndex.ofSource source
  let e := Extent.ofSpan ix d.span
  let rows :=
    ["error: " ++ d.message, d.header e] ++ (Snippet.rows ix e).map String.ofList ++
      d.notes.map ("note: " ++ ·) ++ d.help?.toList.map ("help: " ++ ·) ++
      d.suggestions.map ("suggestion: " ++ ·)
  String.join (rows.map (· ++ "\n"))

end Diagnostic

end SolidScript
