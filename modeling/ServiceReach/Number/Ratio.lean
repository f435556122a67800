/-
  Fractions of natural numbers, for exact comparisons between binary and decimal numbers. A
  fraction is given by its two terms and need not be reduced.
-/

namespace ServiceReach

/-- The fraction `num / den`. -/
structure Ratio where
  num : Nat
  den : Nat
deriving DecidableEq, Repr

namespace Ratio

/-- The fraction times a power of a base. -/
def scale (base : Nat) (power : Int) (r : Ratio) : Ratio :=
  if 0 ≤ power then ⟨r.num * base.pow power.toNat, r.den⟩
  else ⟨r.num, r.den * base.pow (-power).toNat⟩

/-- The number `n * base ^ power`. -/
def ofScaled (base n : Nat) (power : Int) : Ratio :=
  scale base power ⟨n, 1⟩

/-- Whether a fraction is less than another. -/
def isBelow (r s : Ratio) : Bool :=
  r.num * s.den < s.num * r.den

/-- Whether a fraction is at most another. -/
def isAtMost (r s : Ratio) : Bool :=
  r.num * s.den ≤ s.num * r.den

/-- The two natural numbers next to a fraction, the nearer first; of two that are equally near the
even one is first. -/
def neighbours (r : Ratio) : Nat × Nat :=
  let below := r.num / r.den
  let rest := 2 * (r.num % r.den)
  if rest < r.den || rest == r.den && below % 2 == 0 then (below, below + 1)
  else (below + 1, below)

/-- The nearest natural number; a half goes to the even one. -/
def round (r : Ratio) : Nat :=
  r.neighbours.1

/-- The greatest power of a base that is at most the fraction, if it is next to a guess. -/
def magnitude (base : Nat) (guess : Int) (r : Ratio) : Int :=
  if (ofScaled base 1 (guess + 1)).isAtMost r then guess + 1
  else if (ofScaled base 1 guess).isAtMost r then guess
  else guess - 1

end Ratio
end ServiceReach
