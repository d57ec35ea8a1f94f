import SolidScript.Token

namespace SolidScript

/-- The reasons for which tokens are not a program. -/
inductive ParseError where
  /-- The tokens end before a statement is complete; they end at `offset`. -/
  | unexpectedEnd (offset : Nat)
  /-- One statement could be read in more than one way. -/
  | ambiguous (derivations : Nat) (token : Token)
  /-- No program goes on with this token. -/
  | unexpectedToken (token : Token)
  /-- Something else than a name is assigned to; `token` is the first of it. -/
  | invalidTarget (token : Token)
deriving DecidableEq

namespace ParseError

/-- The text shown to users. -/
def message : ParseError → String
  | .unexpectedEnd _ => "Unexpected end of input"
  | .ambiguous .. => "Ambiguous grammar -- internal parsing error"
  | .unexpectedToken t => atToken t ++ "unexpected '" ++ t.text ++ "'"
  | .invalidTarget t => atToken t ++ "cannot assign to '" ++ t.text ++ "'"
where
  atToken (t : Token) : String :=
    "invalid syntax at line " ++ t.line.repr ++ " col " ++ t.column.repr ++ ": "

/-- The token to blame, if there is one. -/
def token? : ParseError → Option Token
  | .unexpectedEnd _ => none
  | .ambiguous _ t => some t
  | .unexpectedToken t => some t
  | .invalidTarget t => some t

/-- The bytes to point at. -/
def span : ParseError → Span
  | .unexpectedEnd offset => ⟨offset, offset⟩
  | .ambiguous _ t => t.span
  | .unexpectedToken t => t.span
  | .invalidTarget t => t.span

end ParseError

end SolidScript
