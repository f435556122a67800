import ServiceReach.Number.Ratio
import ServiceReach.Text.Digit

/-
  Numbers of 53 binary digits. A decimal number stands for the nearest of them, and of two that
  are equally near for the one with an even significand; what is too large is infinite.
-/

namespace ServiceReach

/-- A number of at most 53 binary digits, or what is too large for one, or none at all. -/
inductive Binary64 where
  /-- The number `significand * 2 ^ exponent`, or its negative. -/
  | finite (negative : Bool) (significand : Nat) (exponent : Int)
  | infinite (negative : Bool)
  | nan
deriving DecidableEq, Repr

namespace Binary64

/-- The number of binary digits. -/
def precision : Nat := 53

/-- The least exponent. -/
def minExponent : Int := -1074

/-- The greatest exponent. -/
def maxExponent : Int := 971

/-- Zero, with a sign. -/
def zero (negative : Bool) : Binary64 :=
  .finite negative 0 minExponent

/-- Whether the number is zero. -/
def isZero : Binary64 → Bool
  | .finite _ significand _ => significand == 0
  | _ => false

/-- The number of a rounded significand, which may be one too large. -/
def ofRounded (negative : Bool) (significand : Nat) (exponent : Int) : Binary64 :=
  let (significand, exponent) :=
    if significand == Nat.pow 2 precision then (Nat.pow 2 (precision - 1), exponent + 1)
    else (significand, exponent)
  if maxExponent < exponent then .infinite negative else .finite negative significand exponent

/-- The number nearest to a fraction, which is not zero. -/
def ofRatio (negative : Bool) (r : Ratio) : Binary64 :=
  let magnitude := r.magnitude 2 (Int.ofNat r.num.log2 - Int.ofNat r.den.log2)
  let exponent := max (magnitude - Int.ofNat (precision - 1)) minExponent
  ofRounded negative (r.scale 2 (-exponent)).round exponent

/-- Below this power of ten a number is zero. -/
def minMagnitude : Int := -330

/-- From this power of ten on a number is infinite. -/
def maxMagnitude : Int := 310

/-- The number nearest to `digits * 10 ^ power`. -/
def ofDecimal (negative : Bool) (digits : List Char) (power : Int) : Binary64 :=
  let digits := digits.dropWhile (· == '0')
  let magnitude := Int.ofNat digits.length + power
  if digits.isEmpty || magnitude < minMagnitude then zero negative
  else if maxMagnitude < magnitude then .infinite negative
  else ofRatio negative (.ofScaled 10 (Text.digitsValue digits) power)

end Binary64
end ServiceReach
