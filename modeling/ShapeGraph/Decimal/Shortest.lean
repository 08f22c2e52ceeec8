import ShapeGraph.Decimal.Double

/-!
# Shortest decimal digits

A number in double precision is written with the fewest decimal digits that are read back as the
same number, and with those nearest to it if there are several.

## Main definitions

* `Magnitude.rounding` — the interval of all numbers that are rounded to a given one.
* `Magnitude.shortest` — the digits, and the power of ten of the last of them.
* `Double.toPlain` — the digits written out in full, without exponent.
* `Double.toScientific` — as above for moderate sizes, otherwise with an exponent.

## Implementation notes

For one, two, … seventeen digits the two neighbours of the number among the decimals with that many
digits are tested against the interval, exactly; the first hit is the answer.
-/

set_option autoImplicit false

namespace ShapeGraph

namespace Magnitude

/-! ## The rounding interval -/

/-- The bounds of the numbers that are rounded to `x`, as multiples of `2 ^ (exponent - 2)`.  Below
a power of two the neighbour is only half as far away. -/
def rounding (x : Magnitude) : Nat × Nat :=
  let low := if x.significand = 1 <<< 52 ∧ minExponent < x.exponent then 1 else 2
  (4 * x.significand - low, 4 * x.significand + 2)

/-- The sign of `c * 10 ^ e - m * 2 ^ q`. -/
def compareDecimal (c : Nat) (e : Int) (m : Nat) (q : Int) : Ordering :=
  compare ((c * Nat.pow 10 e.toNat) <<< (-q).toNat) ((m * Nat.pow 10 (-e).toNat) <<< q.toNat)

/-- Whether the decimal `c * 10 ^ e` is rounded to `x`; the ends of the interval are, if the
significand is even. -/
def roundsTo (x : Magnitude) (c : Nat) (e : Int) : Bool :=
  let low := compareDecimal c e x.rounding.1 (x.exponent - 2)
  let high := compareDecimal c e x.rounding.2 (x.exponent - 2)
  if x.significand % 2 = 0 then low != .lt && high != .gt else low == .gt && high == .lt

/-! ## The digits -/

/-- The greatest `k` with `10 ^ k ≤ x`, for `x` not zero.  The number of binary digits gives it up to
one, from which two comparisons find it. -/
def leadingPlace (x : Magnitude) : Int :=
  let guess : Int := ((x.exponent + Nat.log2 x.significand) * 30103 - 100000) / 100000
  if compareDecimal 1 (guess + 2) x.significand x.exponent != .gt then guess + 2
  else if compareDecimal 1 (guess + 1) x.significand x.exponent != .gt then guess + 1
  else guess

/-- The decimal with last digit at place `e` that is nearest to `x` among those rounded to `x`. -/
def nearestAt (tie : Tie) (x : Magnitude) (e : Int) : Option Nat :=
  let num := (x.significand * Nat.pow 10 (-e).toNat) <<< x.exponent.toNat
  let den := Nat.pow 10 e.toNat <<< (-x.exponent).toNat
  let c := nearestNat tie num den
  let other := if c * den ≤ num then c + 1 else c - 1
  if x.roundsTo c e then some c else if x.roundsTo other e then some other else none

/-- A number without the zeros at its end, and their count. -/
def dropZeros : Nat → Nat → Nat × Nat
  | 0, c => (c, 0)
  | fuel + 1, c =>
    if c ≠ 0 ∧ c % 10 = 0 then
      let (d, k) := dropZeros fuel (c / 10)
      (d, k + 1)
    else (c, 0)

/-- The fewest digits that are read back as `x`, and the power of ten of the last of them. -/
def shortest (tie : Tie) (x : Magnitude) : Nat × Int :=
  if x.isZero then (0, 0)
  else
    let place := x.leadingPlace
    let found := (List.range 17).findSome? fun (n : Nat) =>
      let e := place - n
      (nearestAt tie x e).map fun c => (c, e)
    match found with
    | some (c, e) =>
      let (d, k) := dropZeros 20 c
      (d, e + k)
    | none => (x.significand, x.exponent)

end Magnitude

namespace Double

/-! ## Layouts -/

/-- So many zeros. -/
def zeros (n : Int) : String := String.ofList (List.replicate n.toNat '0')

/-- The digits with the decimal point after the first `point` of them; zeros fill the gap if there
are fewer digits or if the point stands before the first one. -/
def placePoint (digits : String) (point : Int) (whole : String) : String :=
  let n : Int := digits.length
  if n ≤ point then digits ++ zeros (point - n) ++ whole
  else if 0 < point then
    String.ofList (digits.toList.take point.toNat) ++ "."
      ++ String.ofList (digits.toList.drop point.toNat)
  else "0." ++ zeros (-point) ++ digits

/-- The minus sign of a negative number. -/
def sign (x : Double) : String := if x.negative then "-" else ""

/-- The number without exponent; whole numbers have no decimal point.  Of two decimals that are equally
near the greater one is written. -/
def toPlain (x : Double) : String :=
  let (c, e) := Magnitude.shortest .up x.magnitude
  let digits := toString c
  x.sign ++ if c = 0 then "0" else placePoint digits (digits.length + e) ""

/-- The number without exponent if its first digit has a place between `10 ^ -5` and `10 ^ 15`, and
otherwise with one digit before the point and a signed exponent.  Text without exponent always has a
point.  Of two decimals that are equally near the even one is written. -/
def toScientific (x : Double) : String :=
  let (c, e) := Magnitude.shortest .even x.magnitude
  let digits := toString c
  let point : Int := digits.length + e
  x.sign ++
    if c = 0 then "0.0"
    else if -5 < point ∧ point ≤ 16 then placePoint digits point ".0"
    else
      let power := point - 1
      let head := if digits.length = 1 then digits else placePoint digits 1 ""
      head ++ "e" ++ (if power < 0 then "-" else "+") ++ toString power.natAbs

end Double

end ShapeGraph
