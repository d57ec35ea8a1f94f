namespace SolidScript.Escape

/-- The value of a hexadecimal digit in letters of either case. -/
def hexDigit? (c : Char) : Option Nat :=
  if '0' ≤ c ∧ c ≤ '9' then some (c.toNat - '0'.toNat)
  else if 'a' ≤ c ∧ c ≤ 'f' then some (c.toNat - 'a'.toNat + 10)
  else if 'A' ≤ c ∧ c ≤ 'F' then some (c.toNat - 'A'.toNat + 10)
  else none

/-- The character with the given code point, unless that is half of a surrogate pair. -/
def codePoint? (n : Nat) : Option Char := if n.isValidChar then some (Char.ofNat n) else none

/-- The character whose code point four hexadecimal digits spell. -/
def unicode? (a b c d : Char) : Option Char := do
  codePoint? (((← hexDigit? a) * 16 + (← hexDigit? b)) * 256 + (← hexDigit? c) * 16 +
    (← hexDigit? d))

/-- The characters that a string literal's inside stands for. A backslash before `n`, `t` or `r`
stands for that control character and before `u` with four hexadecimal digits for the character
they spell. Before anything else it is dropped, but it is kept at the very end and before a `u`
that spells no character. -/
def decode : List Char → List Char
  | '\\' :: 'n' :: cs => '\n' :: decode cs
  | '\\' :: 't' :: cs => '\t' :: decode cs
  | '\\' :: 'r' :: cs => '\r' :: decode cs
  | '\\' :: 'u' :: a :: b :: c :: d :: cs =>
    match unicode? a b c d with
    | some spelled => spelled :: decode cs
    | none => '\\' :: 'u' :: decode (a :: b :: c :: d :: cs)
  | '\\' :: 'u' :: cs => '\\' :: 'u' :: decode cs
  | '\\' :: c :: cs => c :: decode cs
  | c :: cs => c :: decode cs
  | [] => []

/-- The inside of a quoted text: all of it but the quotes, if there are two. -/
def inside : List Char → List Char
  | '"' :: cs => if cs.getLast? = some '"' then cs.dropLast else '"' :: cs
  | cs => cs

end SolidScript.Escape
