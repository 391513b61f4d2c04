import DocTree.Decimal.Double

/-!
The double as which a decimal is read. Whole numbers and powers of ten are exact, and every step from
them to the double rounds to the nearest: the leading digits that fit 64 bits make a whole number,
which is rounded, and then multiplied or divided by a rounded power of ten. A decimal of few digits
and places is read as the double nearest to it; any other as one close by.
-/

namespace DocTree.Decimal

/-- The decimal `significand * 10 ^ exponent`. -/
structure Scaled where
  significand : Nat
  exponent : Int
  deriving DecidableEq, Repr

namespace Scaled

/-! ### Digits -/

/-- Significands lie below it. -/
def bound : Nat := Nat.pow 2 64

/-- Digits are put behind a significand up to the first for which there is no room. That digit and
all digits behind it are left. -/
def absorb (significand : Nat) : List Nat → Nat × List Nat
  | [] => (significand, [])
  | digit :: rest =>
    let longer := significand * 10 + digit
    if longer < bound then absorb longer rest else (significand, digit :: rest)

/-- The decimal of the digits before and behind the point. A digit before the point for which there is
no room keeps its place as a power of ten; behind the point it is dropped. -/
def ofDigits (whole fraction : List Nat) (exponent : Int) : Scaled :=
  let (significand, places) := absorb 0 whole
  let (significand, dropped) := absorb significand fraction
  ⟨significand, exponent + places.length - (fraction.length - dropped.length : Nat)⟩

/-! ### Scaling -/

/-- The largest power of ten among the doubles. -/
def maxPower : Nat := 308

/-- The double nearest to a power of ten. -/
def power (n : Nat) : Double := .ofNat (Nat.pow 10 n)

/-- The decimal without a sign as a double. A division by more than the largest power of ten takes two
steps, and by more than its square leaves nothing. -/
def magnitude (s : Scaled) : Double :=
  let x := Double.ofNat s.significand
  let places := s.exponent.natAbs
  if 0 ≤ s.exponent then
    if places ≤ maxPower then x.mul (power places)
    else if s.significand = 0 then .zero false
    else .infinity false
  else if places ≤ maxPower then x.div (power places)
  else if places ≤ 2 * maxPower then (x.div (power maxPower)).div (power (places - maxPower))
  else .zero false

/-- The double as which the decimal is read; infinite when out of range. -/
def toDouble (negative : Bool) (s : Scaled) : Double := s.magnitude.withSign negative

example : (ofDigits [0] [1] 0).toDouble false = ⟨0x3FB999999999999A⟩ := by decide +kernel
example : (ofDigits [5] [] (-324)).toDouble true = ⟨0x8000000000000001⟩ := by decide +kernel
example : (ofDigits [1] [6, 0, 2, 1, 7, 6, 6, 3, 4] (-19)).toDouble false = ⟨0x3C07A4DA290C1654⟩ := by
  decide +kernel

end Scaled

end DocTree.Decimal
