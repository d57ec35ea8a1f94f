/-!
Numbers are binary floating-point values of 64 bits. This module opens them up: every finite one is
a whole number times a power of two, and what is decided about numbers elsewhere (their order, the
remainder of a division, the element that they select, their text) is decided on that exact value.
-/

namespace SolidScript.Number

/-- A power of two. -/
def twoTo (n : Nat) : Nat := Nat.pow 2 n

/-- What the bits of a number stand for. -/
inductive Binary where
  | nan
  | infinite (negative : Bool)
  /-- The value is `mantissa * 2 ^ exponent`, with a sign. -/
  | finite (negative : Bool) (mantissa : Nat) (exponent : Int)
deriving DecidableEq

/-- Whether the sign bit is set. -/
def isNegative (x : Float) : Bool := twoTo 63 ≤ x.toBits.toNat

/-- All bits but the sign, read as a whole number. It grows with the absolute value. -/
def magnitude (x : Float) : Nat := x.toBits.toNat % twoTo 63

/-- The magnitude of an infinite number. Only what is not a number lies above it. -/
def infiniteMagnitude : Nat := 2047 * twoTo 52

/-- Takes a number apart. -/
def decode (x : Float) : Binary :=
  let biased : Nat := magnitude x / twoTo 52
  let fraction := magnitude x % twoTo 52
  if infiniteMagnitude < magnitude x then .nan
  else if magnitude x = infiniteMagnitude then .infinite (isNegative x)
  else if biased = 0 then .finite (isNegative x) fraction (-1074)
  else .finite (isNegative x) (twoTo 52 + fraction) ((biased : Int) - 1075)

/-- Puts a finite number together. The value has to be one that 64 bits can hold; then the result
is exact. -/
def encode (negative : Bool) (mantissa : Nat) (exponent : Int) : Float :=
  let width : Int := if mantissa = 0 then 0 else mantissa.log2 + 1
  let target := max (exponent + width - 53) (-1074)
  let scaled :=
    if exponent ≤ target then mantissa / twoTo (target - exponent).toNat
    else mantissa * twoTo (exponent - target).toNat
  let magnitude :=
    if scaled < twoTo 52 then scaled else (target + 1075).toNat * twoTo 52 + (scaled - twoTo 52)
  Float.ofBits (magnitude + if negative then twoTo 63 else 0).toUInt64

/-- The value that is not a number. -/
def nan : Float := 0.0 / 0.0

/-- The positive infinity. -/
def infinity : Float := 1.0 / 0.0

/-- The number on the other side of zero if `negative`, otherwise the number itself. -/
def signed (negative : Bool) (x : Float) : Float := if negative then -x else x

/-- A whole number that orders the numbers, and the same for both zeros; none for what is not a
number. -/
def rank? (x : Float) : Option Int :=
  if infiniteMagnitude < magnitude x then none
  else if isNegative x then some (-(magnitude x : Int))
  else some (magnitude x)

/-- The order of two numbers, if both are numbers. -/
def order? (x y : Float) : Option Ordering := do
  return compare (← rank? x) (← rank? y)

/-- Whether the number is a zero of either sign. -/
def isZero (x : Float) : Bool := rank? x = some 0

/-- What is left of `x` when it is divided by `y` as often as it goes in whole, with the sign of
`x`. There is no such number if `y` is zero or `x` infinite. -/
def remainder (x y : Float) : Float :=
  match decode x, decode y with
  | .finite negative m p, .finite _ n q =>
    if n = 0 then nan
    else
      let e := min p q
      encode negative (m * twoTo (p - e).toNat % (n * twoTo (q - e).toNat)) e
  | .finite .., .infinite _ => x
  | _, _ => nan

/-- The place in a sequence that a number selects: its whole part, if it is finite and not below
zero. -/
def index? (x : Float) : Option Nat :=
  match decode x with
  | .finite negative m e =>
    if negative && m ≠ 0 then none
    else if 0 ≤ e then some (m * twoTo e.toNat)
    else some (m / twoTo (-e).toNat)
  | _ => none

end SolidScript.Number
