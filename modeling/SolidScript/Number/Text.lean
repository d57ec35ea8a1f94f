import SolidScript.Number.Binary

namespace SolidScript.Number

/-- A power of ten. -/
def tenTo (n : Nat) : Nat := Nat.pow 10 n

/-- The whole number nearest to `num / den`, of two equally near ones the even one. -/
def roundDiv (num den : Nat) : Nat :=
  let q := num / den
  let r := num % den
  if 2 * r < den ∨ (2 * r = den ∧ q % 2 = 0) then q else q + 1

/-- The number of decimal digits. -/
def digitCount (n : Nat) : Nat := (Nat.toDigits 10 n).length

/-- The largest `x` with `10 ^ x ≤ num / den`. The digit counts of the two leave only two
candidates. -/
def decimalExponent (num den : Nat) : Int :=
  let a := digitCount num
  let b := digitCount den
  if den * tenTo a ≤ num * tenTo b then (a : Int) - b else (a : Int) - b - 1

/-- How many digits are kept. -/
def significantDigits : Nat := 6

/-- A positive value rounded to `digits * 10 ^ (exponent + 1 - significantDigits)`, where `digits`
has exactly that many digits; so `exponent` is the place of the first one. -/
structure Rounded where
  digits : Nat
  exponent : Int
deriving DecidableEq

/-- Rounds the positive value `num / den`. Where all digits are nines the rounding may carry into
the next power of ten. -/
def round (num den : Nat) : Rounded :=
  let x := decimalExponent num den
  let shift := significantDigits - 1 - x
  let digits :=
    if 0 ≤ shift then roundDiv (num * tenTo shift.toNat) den
    else roundDiv num (den * tenTo (-shift).toNat)
  if digits = tenTo significantDigits then ⟨tenTo (significantDigits - 1), x + 1⟩ else ⟨digits, x⟩

/-- Leaves out the zeros at the end. -/
def trimZeros (cs : List Char) : List Char := (cs.reverse.dropWhile (· = '0')).reverse

/-- Puts a whole part and a fraction together; a fraction of zeros is left out with its point. -/
def joinFraction (whole fraction : List Char) : List Char :=
  match trimZeros fraction with
  | [] => whole
  | ds => whole ++ '.' :: ds

/-- At least two digits. -/
def twoDigits (n : Nat) : List Char :=
  if n < 10 then '0' :: Nat.toDigits 10 n else Nat.toDigits 10 n

namespace Rounded

/-- Digits with the point in its place. -/
def positional (r : Rounded) : List Char :=
  let ds := Nat.toDigits 10 r.digits
  if r.exponent < 0 then joinFraction ['0'] (List.replicate (-r.exponent - 1).toNat '0' ++ ds)
  else joinFraction (ds.take (r.exponent.toNat + 1)) (ds.drop (r.exponent.toNat + 1))

/-- One digit, the point, the other digits and the power of ten. -/
def scientific (r : Rounded) : List Char :=
  let ds := Nat.toDigits 10 r.digits
  joinFraction (ds.take 1) (ds.drop 1) ++
    'e' :: (if r.exponent < 0 then '-' else '+') :: twoDigits r.exponent.natAbs

/-- Positional form is for values from `0.0001` up to a million. -/
def chars (r : Rounded) : List Char :=
  if -4 ≤ r.exponent ∧ r.exponent < 6 then r.positional else r.scientific

end Rounded

/-- The digits of the value `m * 2 ^ e`. -/
def finiteChars (m : Nat) (e : Int) : List Char :=
  if m = 0 then ['0']
  else if 0 ≤ e then (round (m * twoTo e.toNat) 1).chars
  else (round m (twoTo (-e).toNat)).chars

/-- The text of a number. -/
def text (x : Float) : String :=
  match decode x with
  | .nan => "nan"
  | .infinite false => "inf"
  | .infinite true => "-inf"
  | .finite false m e => String.ofList (finiteChars m e)
  | .finite true m e => String.ofList ('-' :: finiteChars m e)

end SolidScript.Number
