import SolidScript.Number.Binary

namespace SolidScript.Number

/-- The value `digits * 10 ^ exponent`. -/
structure Decimal where
  digits : Nat
  exponent : Int
deriving DecidableEq

/-- The whole number that decimal digits spell. -/
def ofDigits (ds : List Char) : Nat := ds.foldl (fun n d => 10 * n + (d.toNat - '0'.toNat)) 0

/-- Takes an optional sign off the front; the first part says whether it was a minus. -/
def takeSign : List Char → Bool × List Char
  | '-' :: cs => (true, cs)
  | '+' :: cs => (false, cs)
  | cs => (false, cs)

/-- Reads the end of a numeral: nothing, or an exponent with at least one digit. -/
def readExponent? : List Char → Option Int
  | [] => some 0
  | c :: cs =>
    let (negative, ds) := takeSign cs
    if (c = 'e' ∨ c = 'E') ∧ ds ≠ [] ∧ ds.all Char.isDigit then
      some (if negative then -(ofDigits ds : Int) else ofDigits ds)
    else none

/-- Takes a point and the digits behind it off the front. -/
def takeFraction : List Char → List Char × List Char
  | '.' :: cs => cs.span Char.isDigit
  | cs => ([], cs)

namespace Decimal

/-- Reads a numeral without sign: digits with an optional point, at least one of them, and an
optional exponent. -/
def read? (cs : List Char) : Option Decimal :=
  let (whole, rest) := cs.span Char.isDigit
  let (fraction, rest) := takeFraction rest
  if whole = [] ∧ fraction = [] then none
  else
    (readExponent? rest).map fun e => ⟨ofDigits (whole ++ fraction), e - (fraction.length : Int)⟩

/-- The nearest number. A value of more than 310 digits before the point is beyond all finite
numbers, and one with more than 330 zeros behind it is below all but zero, so neither power of ten
is computed. -/
def toFloat (d : Decimal) : Float :=
  let scale := (Nat.toDigits 10 d.digits).length + d.exponent
  if d.digits = 0 ∨ scale < -330 then 0.0
  else if 310 < scale then infinity
  else Float.ofScientific d.digits (d.exponent < 0) d.exponent.natAbs

end Decimal

/-- The words for numbers that have no digits, in small letters. -/
def word? (cs : List Char) : Option Float :=
  if cs = "inf".toList ∨ cs = "infinity".toList then some infinity
  else if cs = "nan".toList then some nan
  else none

/-- Reads a number: an optional sign, and a numeral or a word in letters of either case. -/
def read? (text : String) : Option Float :=
  let (negative, cs) := takeSign text.toList
  (((Decimal.read? cs).map Decimal.toFloat).orElse fun _ => word? (cs.map Char.toLower)).map
    (signed negative)

end SolidScript.Number
