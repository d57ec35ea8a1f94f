import SolidScript.Parser.ParseError
import SolidScript.Parser.Statement

namespace SolidScript

namespace Parser

/-- Whole programs: statements up to the end, each with its tokens. -/
def program : Parser (List (Derivation × List Token)) := do
  let statements ← repeated (sliced statement)
  atEnd
  return statements

/-- The offset behind the last token, zero if there is none. -/
def endOffset (ts : List Token) : Nat := (ts.getLast?.map Token.stop).getD 0

/-- Counts the productions that accept exactly the tokens of one statement. -/
def checkDerivations (ts : List Token) : Except ParseError Unit :=
  let derivations := (Production.all.filter (·.accepts ts)).length
  if derivations = 1 then .ok ()
  else
    match ts with
    | [] => .error (.unexpectedEnd 0)
    | t :: _ =>
      if derivations = 0 then .error (.unexpectedEnd (endOffset ts))
      else .error (.ambiguous derivations t)

/-- Checks the statements in order. -/
def checkAll : List (Derivation × List Token) → Except ParseError Unit
  | [] => .ok ()
  | (_, ts) :: rest => do
    checkDerivations ts
    checkAll rest

/-- The error for tokens that are no program: it blames the token at the furthest failure. -/
def syntaxError (ts : List Token) (left? : Option Nat) : ParseError :=
  match left?.bind fun left => ts[ts.length - left]? with
  | some t => .unexpectedToken t
  | none => .unexpectedEnd (endOffset ts)

end Parser

/-- Reads significant tokens as a program. -/
def parseTokens (ts : List Token) : Except ParseError Derivation :=
  match Parser.program ts with
  | ⟨none, left?⟩ => .error (Parser.syntaxError ts left?)
  | ⟨some (statements, _), _⟩ => do
    Parser.checkAll statements
    return .sequence (statements.map Prod.fst)

end SolidScript
