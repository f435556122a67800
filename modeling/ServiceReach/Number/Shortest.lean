import ServiceReach.Number.Binary64

/-
  Numbers of 53 binary digits as decimal text. A number is written with the fewest digits that
  stand for it, and of those with the nearest. The digits are found by trying one grid of decimal
  numbers after the other, from coarse to fine: if any point of a grid stands for a number, one of
  its two neighbours does. Very large and very small numbers are written with an exponent.
-/

namespace ServiceReach.Binary64

/-- A decimal number: its digits, and the power of ten of the last one. -/
structure Decimal where
  digits : Nat
  power : Int
deriving DecidableEq, Repr

/-- The fraction below which others no longer stand for a number. -/
def lowerBound (significand : Nat) (exponent : Int) : Ratio :=
  if significand == Nat.pow 2 (precision - 1) && minExponent < exponent then
    .ofScaled 2 (4 * significand - 1) (exponent - 2)
  else .ofScaled 2 (2 * significand - 1) (exponent - 1)

/-- The fraction above which others no longer stand for a number. -/
def upperBound (significand : Nat) (exponent : Int) : Ratio :=
  .ofScaled 2 (2 * significand + 1) (exponent - 1)

/-- Whether a fraction stands for a number; the bounds do if the significand is even. -/
def standsFor (r : Ratio) (significand : Nat) (exponent : Int) : Bool :=
  let low := lowerBound significand exponent
  let high := upperBound significand exponent
  if significand % 2 == 0 then low.isAtMost r && r.isAtMost high
  else low.isBelow r && r.isBelow high

/-- The multiple of a power of ten that is next to a number and stands for it. -/
def onGrid? (significand : Nat) (exponent power : Int) : Option Decimal :=
  let (near, far) := ((Ratio.ofScaled 2 significand exponent).scale 10 (-power)).neighbours
  let fits := fun n => standsFor (.ofScaled 10 n power) significand exponent
  if fits near then some ⟨near, power⟩
  else if fits far then some ⟨far, power⟩
  else none

/-- The power of ten of the first digit of a number. -/
def leadingPower (significand : Nat) (exponent : Int) : Int :=
  let guess := (Int.ofNat significand.log2 + exponent) * 1233 / 4096
  (Ratio.ofScaled 2 significand exponent).magnitude 10 guess

/-- The greatest number of digits that are needed. -/
def maxDecimalDigits : Nat := 17

/-- The decimal number with the fewest digits that stands for a number. -/
def shortest (significand : Nat) (exponent : Int) : Decimal :=
  let top := leadingPower significand exponent
  let grids := (List.range maxDecimalDigits).map fun count => top - Int.ofNat count
  (grids.findSome? (onGrid? significand exponent)).getD ⟨0, 0⟩

/-- Digits without the zeros at their end. -/
def dropZeros (digits : List Char) : List Char :=
  (digits.reverse.dropWhile (· == '0')).reverse

/-- The digits with the point after the first `place` of them. -/
def positional (digits : List Char) (place : Int) : List Char :=
  if place ≤ 0 then
    '0' :: '.' :: List.replicate (-place).toNat '0' ++ digits
  else
    let whole := digits.take place.toNat
    let fraction := digits.drop place.toNat
    whole ++ List.replicate (place.toNat - digits.length) '0' ++
      '.' :: (if fraction.isEmpty then ['0'] else fraction)

/-- The digits with the point after the first of them, and an exponent of at least two digits. -/
def scientific (digits : List Char) (exponent : Int) : List Char :=
  let size := Nat.toDigits 10 exponent.natAbs
  digits.take 1 ++ (if digits.length ≤ 1 then [] else '.' :: digits.drop 1) ++
    'e' :: (if exponent < 0 then '-' else '+') ::
      List.replicate (2 - size.length) '0' ++ size

/-- A positive decimal number as text: with an exponent below a ten-thousandth and from `10 ^ 16`
on. -/
def Decimal.text (d : Decimal) : List Char :=
  let written := Nat.toDigits 10 d.digits
  let place := Int.ofNat written.length + d.power
  let digits := dropZeros written
  if -4 < place && place ≤ 16 then positional digits place else scientific digits (place - 1)

/-- How the numbers that have no digits are written. -/
structure SpecialNames where
  infinity : String
  nan : String

/-- A number as text. -/
def text (names : SpecialNames) : Binary64 → List Char
  | .nan => names.nan.toList
  | .infinite negative => (if negative then ['-'] else []) ++ names.infinity.toList
  | .finite negative significand exponent =>
    (if negative then ['-'] else []) ++
      (if significand == 0 then ['0', '.', '0'] else (shortest significand exponent).text)

end ServiceReach.Binary64
