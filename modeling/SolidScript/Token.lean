import SolidScript.Span

namespace SolidScript

/-- What sort of piece a token is. -/
inductive TokenKind where
  | whitespace
  | comment
  | number
  | string
  | identifier
  /-- An identifier with a dollar sign in front, such as `$fn`. -/
  | specialIdentifier
  | keyword
  | punct
deriving DecidableEq, Inhabited

/-- The name of the sort as shown to users. -/
def TokenKind.label : TokenKind → String
  | .whitespace => "whitespace"
  | .comment => "comment"
  | .number => "number"
  | .string => "string"
  | .identifier => "identifier"
  | .specialIdentifier => "special identifier"
  | .keyword => "keyword"
  | .punct => "punctuation"

/-- A piece of text with its sort, wherever it stands. -/
structure Lexeme where
  kind : TokenKind
  /-- The text as written, with quotes and escapes. -/
  text : String
deriving DecidableEq, Inhabited

/-- A lexeme at its place. Offset and length count bytes, line and column are counted from one. -/
structure Token extends Lexeme where
  offset : Nat
  length : Nat
  line : Nat
  column : Nat
  /-- Whether the text holds a line break. -/
  multiline : Bool
deriving DecidableEq, Inhabited

namespace Token

/-- The offset behind the last byte. -/
def stop (t : Token) : Nat := t.offset + t.length

/-- The bytes that the token covers. -/
def span (t : Token) : Span := ⟨t.offset, t.stop⟩

/-- Whitespace and comments mean nothing to the grammar. -/
def isTrivia (t : Token) : Bool := t.kind = .whitespace || t.kind = .comment

/-- Whether the token is the given punctuation. -/
def isPunct (t : Token) (symbol : String) : Bool := t.kind = .punct && t.text = symbol

/-- Whether the token is the given keyword. -/
def isKeyword (t : Token) (word : String) : Bool := t.kind = .keyword && t.text = word

/-- Whether the token names something: a plain identifier or a special one. -/
def isName (t : Token) : Bool := t.kind = .identifier || t.kind = .specialIdentifier

/-- The bytes from the first of the tokens to the last; the origin if there are none. -/
def spanOf (ts : List Token) : Span :=
  match ts.head?, ts.getLast? with
  | some first, some last => ⟨first.offset, last.stop⟩
  | _, _ => Span.origin

/-- The tokens that the grammar reads. -/
def significant (ts : List Token) : List Token := ts.filter (!·.isTrivia)

end Token

/-- The tokens that have been read if `rest` is what is left of `ts`. -/
def consumed (ts rest : List Token) : List Token := ts.take (ts.length - rest.length)

end SolidScript
