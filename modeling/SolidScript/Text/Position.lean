namespace SolidScript

/-- The number of bytes that the characters take in UTF-8. -/
def byteLength : List Char → Nat
  | [] => 0
  | c :: cs => c.utf8Size + byteLength cs

@[simp]
theorem byteLength_nil : byteLength [] = 0 := rfl

@[simp]
theorem byteLength_cons (c : Char) (cs : List Char) :
    byteLength (c :: cs) = c.utf8Size + byteLength cs := rfl

@[simp]
theorem byteLength_append (as bs : List Char) :
    byteLength (as ++ bs) = byteLength as + byteLength bs := by
  induction as with
  | nil => simp
  | cons c cs ih => simp [ih, Nat.add_assoc]

/-- A place in a text. Lines and columns are counted from one. -/
structure Position where
  offset : Nat
  line : Nat
  column : Nat
deriving DecidableEq, Inhabited

namespace Position

/-- Where every text begins. -/
def start : Position := ⟨0, 1, 1⟩

/-- The first place of the next line, `width` bytes further on. -/
def newline (p : Position) (width : Nat) : Position := ⟨p.offset + width, p.line + 1, 1⟩

/-- The place behind the given characters. A line feed, a carriage return, and the two together
each end one line. -/
def advance (p : Position) : List Char → Position
  | [] => p
  | '\r' :: '\n' :: cs => (p.newline 2).advance cs
  | '\r' :: cs => (p.newline 1).advance cs
  | '\n' :: cs => (p.newline 1).advance cs
  | c :: cs => advance ⟨p.offset + c.utf8Size, p.line, p.column + 1⟩ cs

end Position

end SolidScript
