/-!
Binary floating-point numbers of 64 bits, by their bits. A finite number is `m * 2 ^ q` with a sign,
and everything here is exact arithmetic on `m` and `q`: reading the parts, and rounding a fraction
of natural numbers to the nearest double, a tie to the even one. A product or a quotient of doubles is
the exact one, rounded once.
-/

namespace DocTree.Decimal

/-- A double, given by its bits: sign, 11 exponent bits, 52 fraction bits. -/
structure Double where
  bits : UInt64
  deriving DecidableEq, Repr, Inhabited

/-- What a double stands for. -/
inductive Double.Value where
  | nan
  | infinite (negative : Bool)
  /-- The number `m * 2 ^ q`, negated when `negative`. -/
  | finite (negative : Bool) (m : Nat) (q : Int)
  deriving DecidableEq, Repr

namespace Double

/-- The smallest exponent of a finite double. -/
def minExponent : Int := -1074

/-- The place of the sign bit. -/
def signBit : Nat := Nat.pow 2 63

/-- The place of the leading bit of a significand, which is not stored. -/
def leadingBit : Nat := Nat.pow 2 52

/-- The sign bit is set. -/
def isNegative (x : Double) : Bool :=
  signBit ≤ x.bits.toNat

/-- The bits without the sign. -/
def magnitude (x : Double) : Nat :=
  x.bits.toNat % signBit

/-- The magnitude of both infinities; every finite double has a smaller one. -/
def infinityMagnitude : Nat := 2047 * leadingBit

/-- The double of a sign and a magnitude. -/
def ofMagnitude (negative : Bool) (magnitude : Nat) : Double :=
  ⟨UInt64.ofNat ((if negative then signBit else 0) + magnitude)⟩

def nan : Double := ⟨0x7FF8000000000000⟩

def infinity (negative : Bool) : Double :=
  ofMagnitude negative infinityMagnitude

def zero (negative : Bool) : Double :=
  ofMagnitude negative 0

/-- The number a double stands for. -/
def value (x : Double) : Value :=
  let exponent := x.magnitude / leadingBit
  let fraction := x.magnitude % leadingBit
  if exponent = 2047 then
    if fraction = 0 then .infinite x.isNegative else .nan
  else if exponent = 0 then .finite x.isNegative fraction minExponent
  else .finite x.isNegative (leadingBit + fraction) (minExponent + (exponent - 1 : Nat))

/-- Is a number and not infinite. -/
def isFinite (x : Double) : Bool :=
  x.magnitude < infinityMagnitude

/-- Equal as numbers: a value that is no number differs from itself, and both zeros are equal. -/
def equal (x y : Double) : Bool :=
  match x.value, y.value with
  | .nan, _ | _, .nan => false
  | .finite _ 0 _, .finite _ 0 _ => true
  | v, w => v = w

/-- The quotient rounded to the nearest natural number, a tie to the even one. -/
def roundedQuotient (num den : Nat) : Nat :=
  let q := num / den
  let twice := 2 * (num % den)
  if twice < den then q else if den < twice then q + 1 else q + q % 2

/-- The largest `k` with `2 ^ k ≤ num / den`, both positive. -/
def floorLog2 (num den : Nat) : Int :=
  let k : Int := (num.log2 : Int) - den.log2
  let reached := if 0 ≤ k then den * Nat.pow 2 k.toNat ≤ num else den ≤ num * Nat.pow 2 (-k).toNat
  if reached then k else k - 1

/-- The double nearest to `num / den`, a tie to the even one; infinite when out of range. The
significand is rounded at the exponent `q`; adding it to the exponent's place carries by itself. -/
def ofQuotient (negative : Bool) (num den : Nat) : Double :=
  if num = 0 then zero negative
  else
    let q := max minExponent (floorLog2 num den - 52)
    let m := if 0 ≤ q then roundedQuotient num (den * Nat.pow 2 q.toNat)
      else roundedQuotient (num * Nat.pow 2 (-q).toNat) den
    ofMagnitude negative (min infinityMagnitude ((q - minExponent).toNat * leadingBit + m))

/-- The double nearest to a natural number. -/
def ofNat (n : Nat) : Double :=
  ofQuotient false n 1

/-- The double nearest to an integer. -/
def ofInt (n : Int) : Double :=
  ofQuotient (n < 0) n.natAbs 1

/-- The double nearest to `num / den * 2 ^ q`. -/
def ofScaled (negative : Bool) (num den : Nat) (q : Int) : Double :=
  if 0 ≤ q then ofQuotient negative (num * Nat.pow 2 q.toNat) den
  else ofQuotient negative num (den * Nat.pow 2 (-q).toNat)

/-- The same number with a sign. -/
def withSign (negative : Bool) (x : Double) : Double :=
  ofMagnitude negative x.magnitude

/-! ### Arithmetic -/

/-- The product, rounded once. -/
def mul (x y : Double) : Double :=
  match x.value, y.value with
  | .nan, _ | _, .nan => nan
  | .infinite a, .infinite b => infinity (a != b)
  | .infinite a, .finite b n _ | .finite b n _, .infinite a => if n = 0 then nan else infinity (a != b)
  | .finite a m p, .finite b n q => ofScaled (a != b) (m * n) 1 (p + q)

/-- The quotient, rounded once. -/
def div (x y : Double) : Double :=
  match x.value, y.value with
  | .nan, _ | _, .nan | .infinite _, .infinite _ => nan
  | .infinite a, .finite b _ _ => infinity (a != b)
  | .finite a _ _, .infinite b => zero (a != b)
  | .finite a m p, .finite b n q =>
    if n ≠ 0 then ofScaled (a != b) m n (p - q)
    else if m = 0 then nan else infinity (a != b)

/-- The integer a double stands for exactly, if it is one; both zeros are `0`. -/
def toInt? (x : Double) : Option Int :=
  match x.value with
  | .finite negative m q =>
    let sign : Int := if negative then -1 else 1
    if 0 ≤ q then some (sign * (m * Nat.pow 2 q.toNat : Nat))
    else if m % Nat.pow 2 (-q).toNat = 0 then some (sign * (m / Nat.pow 2 (-q).toNat : Nat))
    else none
  | _ => none

example : ofNat 18446744073709551615 = ⟨0x43F0000000000000⟩ := by decide +kernel
example : (ofNat 1).div (ofNat 10) = ⟨0x3FB999999999999A⟩ := by decide +kernel
example : (withSign true (ofNat 3)).mul (ofNat 5) = ofInt (-15) := by decide +kernel
example : (ofNat (Nat.pow 10 308)).mul (ofNat 10) = infinity false := by decide +kernel

end Double

end DocTree.Decimal
