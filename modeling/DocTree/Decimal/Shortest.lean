import DocTree.Decimal.Double

/-!
The shortest decimal text of a double. Of all decimals that read back to the double the ones with
the fewest digits are taken, and of those the one nearest to the double; a tie between two is for
the layout to decide. For each number of digits only the two neighbours of the value on that decimal
grid can be the answer, so they are tried in turn, in exact arithmetic.
-/

namespace DocTree.Decimal

/-- Which of two equally near decimals is written. -/
inductive Tie where
  | toEven
  | up
  deriving DecidableEq, Repr

/-- A positive decimal `d₁.d₂d₃… * 10 ^ exponent`; the digits have no zero at the end. -/
structure Digits where
  digits : List Nat
  exponent : Int
  deriving DecidableEq, Repr

/-- The digits of a natural number, most significant first. -/
def digitsOf (n : Nat) : List Nat :=
  (Nat.toDigits 10 n).map fun c => c.toNat - '0'.toNat

/-- A fraction `num / den` of natural numbers. -/
structure Fraction where
  num : Nat
  den : Nat
  deriving DecidableEq, Repr

/-- The fraction `n * b ^ e`. -/
def Fraction.scaled (n b : Nat) (e : Int) : Fraction :=
  if 0 ≤ e then ⟨n * b.pow e.toNat, 1⟩ else ⟨n, b.pow (-e).toNat⟩

def Fraction.lt (x y : Fraction) : Bool := x.num * y.den < y.num * x.den

def Fraction.le (x y : Fraction) : Bool := x.num * y.den ≤ y.num * x.den

/-- The reals that round to `m * 2 ^ q`: half a step up, and half a step down or, where the doubles
below lie twice as dense, a quarter. The ends belong to it when `m` is even. -/
structure Interval where
  low : Fraction
  high : Fraction
  closed : Bool
  deriving DecidableEq, Repr

/-- The interval of the reals that round to `m * 2 ^ q`. -/
def Interval.around (m : Nat) (q : Int) : Interval :=
  let low := if m = Double.leadingBit ∧ Double.minExponent < q then 4 * m - 1 else 4 * m - 2
  ⟨.scaled low 2 (q - 2), .scaled (4 * m + 2) 2 (q - 2), m % 2 = 0⟩

/-- Lies in the interval. -/
def Interval.contains (i : Interval) (x : Fraction) : Bool :=
  if i.closed then i.low.le x && x.le i.high else i.low.lt x && x.lt i.high

/-- The largest `e` with `10 ^ e ≤ x`: a guess from the binary logarithm, mended by one step. -/
def floorLog10 (x : Fraction) : Int :=
  let guess : Int := (Double.floorLog2 x.num x.den * 1233).fdiv 4096
  if (Fraction.scaled 1 10 (guess + 1)).le x then guess + 1
  else if (Fraction.scaled 1 10 guess).le x then guess
  else guess - 1

/-- Without its zeros at the end, `n * 10 ^ place` in scientific form. -/
def Digits.ofScaled (n : Nat) (place : Int) : Digits :=
  let all := digitsOf n
  ⟨(all.reverse.dropWhile (· = 0)).reverse, place + (all.length : Int) - 1⟩

/-- The decimal on the grid `10 ^ place` that is written for the value `x` with the interval `i`:
the nearer of the two neighbours that lie in the interval, if one does. -/
def onGrid (tie : Tie) (x : Fraction) (i : Interval) (place : Int) : Option Nat :=
  let steps : Fraction :=
    if 0 ≤ place then ⟨x.num, x.den * Nat.pow 10 place.toNat⟩
    else ⟨x.num * Nat.pow 10 (-place).toNat, x.den⟩
  let below := steps.num / steps.den
  let twice := 2 * (steps.num % steps.den)
  let holds (n : Nat) := i.contains (.scaled n 10 place)
  match holds below, holds (below + 1) with
  | false, false => none
  | true, false => some below
  | false, true => some (below + 1)
  | true, true =>
    if twice < steps.den then some below
    else if steps.den < twice then some (below + 1)
    else match tie with
      | .toEven => some (below + below % 2)
      | .up => some (below + 1)

/-- The shortest digits of the positive number `m * 2 ^ q`. Seventeen digits always suffice. -/
def shortest (tie : Tie) (m : Nat) (q : Int) : Digits :=
  let x := Fraction.scaled m 2 q
  let i := Interval.around m q
  let e := floorLog10 x
  let found := (List.range 17).findSome? fun (count : Nat) =>
    (onGrid tie x i (e - count)).map fun n => Digits.ofScaled n (e - count)
  found.getD ⟨digitsOf m, 0⟩

/-! ### Layout -/

/-- How a decimal is laid out. -/
structure Layout where
  /-- Which of two equally near decimals is written. -/
  tie : Tie
  /-- The exponents of the first digit that are written without an exponent: from the first bound
  up to and without the second; all of them when absent. -/
  positional : Option (Int × Int)
  /-- A whole number keeps `.0`. -/
  pointKept : Bool
  deriving Repr

/-- The digits as a text. -/
def digitText (digits : List Nat) : String :=
  String.ofList (digits.map fun d => Char.ofNat ('0'.toNat + d))

/-- Without an exponent: zeros fill up to the point on either side. -/
def positionalText (pointKept : Bool) (d : Digits) : String :=
  if d.exponent < 0 then
    "0." ++ digitText (List.replicate (-d.exponent - 1).toNat 0 ++ d.digits)
  else
    let whole := d.exponent.toNat + 1
    let fraction := d.digits.drop whole
    digitText (d.digits.take whole ++ List.replicate (whole - d.digits.length) 0) ++
      (if fraction.isEmpty then if pointKept then ".0" else "" else "." ++ digitText fraction)

/-- With an exponent, whose sign is always written; a single digit has no point. -/
def scientificText (d : Digits) : String :=
  let point := if d.digits.length ≤ 1 then "" else "."
  let sign := if d.exponent < 0 then "-" else "+"
  digitText (d.digits.take 1) ++ point ++ digitText (d.digits.drop 1) ++
    "e" ++ sign ++ toString d.exponent.natAbs

/-- The text of a positive decimal. -/
def Layout.text (layout : Layout) (d : Digits) : String :=
  match layout.positional with
  | none => positionalText layout.pointKept d
  | some (first, bound) =>
    if first ≤ d.exponent ∧ d.exponent < bound then positionalText layout.pointKept d
    else scientificText d

end DocTree.Decimal
