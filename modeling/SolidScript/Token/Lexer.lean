import SolidScript.Text.Position
import SolidScript.Token.Rules

namespace SolidScript

/-- Why no rule applies. -/
inductive Fault where
  | unexpectedCharacter (found : Char)
  | unterminatedString
  | unterminatedComment
deriving DecidableEq

/-- A fault and the place where it was met. -/
structure LexError where
  fault : Fault
  place : Position
deriving DecidableEq

namespace LexError

/-- The text shown to users. -/
def message (e : LexError) : String :=
  match e.fault with
  | .unexpectedCharacter found =>
    "unexpected character '" ++ found.toString ++ "' at line " ++ e.place.line.repr ++
      " col " ++ e.place.column.repr
  | .unterminatedString => unterminated "string"
  | .unterminatedComment => unterminated "block comment"
where
  unterminated (what : String) : String :=
    "unterminated " ++ what ++ " starting at line " ++ e.place.line.repr ++
      " col " ++ e.place.column.repr

/-- The bytes to point at: the unexpected character, or the first byte of what never ends. -/
def span (e : LexError) : Span :=
  match e.fault with
  | .unexpectedCharacter found => ⟨e.place.offset, e.place.offset + found.utf8Size⟩
  | _ => ⟨e.place.offset, e.place.offset + 1⟩

end LexError

namespace Lexical

/-- Why the rules pass by a text that begins with `c`. -/
def faultAt (c : Char) (cs : List Char) : Fault :=
  if c = '"' then .unterminatedString
  else if c = '/' ∧ cs.head? = some '*' then .unterminatedComment
  else .unexpectedCharacter c

/-- Cuts a text of at most `fuel` characters into lexemes, up to its end or to the first fault. -/
def cut : Nat → List Char → List Lexeme × Option Fault
  | _, [] => ([], none)
  | 0, _ :: _ => ([], none)
  | fuel + 1, c :: cs =>
    match scan (c :: cs) with
    | none => ([], some (faultAt c cs))
    | some (kind, n) =>
      let (lexemes, fault) := cut fuel ((c :: cs).drop n)
      (⟨kind, String.ofList ((c :: cs).take n)⟩ :: lexemes, fault)

/-- Gives each lexeme its place, the first at `p`; also the place behind the last one. -/
def place (p : Position) : List Lexeme → List Token × Position
  | [] => ([], p)
  | l :: ls =>
    let cs := l.text.toList
    let (tokens, stop) := place (p.advance cs) ls
    (⟨l, p.offset, byteLength cs, p.line, p.column, cs.any isBreak⟩ :: tokens, stop)

end Lexical

/-- All tokens of a source text, whitespace and comments included, or the first fault. -/
def tokenize (source : String) : Except LexError (List Token) :=
  let cs := source.toList
  let (lexemes, fault) := Lexical.cut cs.length cs
  let (tokens, stop) := Lexical.place Position.start lexemes
  match fault with
  | none => .ok tokens
  | some fault => .error ⟨fault, stop⟩

end SolidScript
