/-!
# Double precision numbers

Numbers with a fraction are kept in double precision: a sign and a significand below `2 ^ 53` scaled
by a power of two.  All arithmetic here is on natural numbers and exact; rounding is one function.

## Main definitions

* `Magnitude` — a non-negative double precision number, `significand * 2 ^ exponent`.
* `Magnitude.round` — the double precision number nearest to a quotient of natural numbers.
* `Magnitude.mul`, `Magnitude.div` — the rounded product and quotient.
* `Double` — a magnitude with a sign; zero has both signs.

## Implementation notes

A magnitude is normalised: its significand has 53 binary digits, or fewer when its exponent is the
least one.  So equal numbers are equal values, and no bit pattern has to be taken apart.
-/

set_option autoImplicit false

namespace ShapeGraph

/-- A non-negative number in double precision, `significand * 2 ^ exponent`. -/
structure Magnitude where
  /-- Less than `2 ^ 53`; at least `2 ^ 52` unless the exponent is `-1074`. -/
  significand : Nat
  /-- Between `-1074` and `971`. -/
  exponent : Int
deriving DecidableEq, Inhabited

namespace Magnitude

/-- The number zero. -/
def zero : Magnitude := ⟨0, -1074⟩

/-- The least exponent. -/
def minExponent : Int := -1074

/-- The greatest exponent. -/
def maxExponent : Int := 971

/-- Whether the number is zero. -/
def isZero (x : Magnitude) : Bool := x.significand == 0

/-- The quotient `num / den`, as two natural numbers, after division by `2 ^ e`. -/
def scaleDown (num den : Nat) (e : Int) : Nat × Nat :=
  if e < 0 then (num <<< (-e).toNat, den) else (num, den <<< e.toNat)

/-- Which of two neighbours is taken halfway between them. -/
inductive Tie where
  /-- The even one. -/
  | even
  /-- The greater one. -/
  | up
deriving DecidableEq, Inhabited

/-- The natural number nearest to `num / den`. -/
def nearestNat (tie : Tie) (num den : Nat) : Nat :=
  let q := num / den
  let twice := 2 * (num % den)
  if twice < den then q
  else if den < twice then q + 1
  else if tie = .even ∧ q % 2 = 0 then q else q + 1

/-- The double precision number nearest to `num / den`; halfway between two, the one with even
significand.  `none` when it would lie beyond the greatest. -/
def round (num den : Nat) : Option Magnitude :=
  if num = 0 then some zero
  else
    let guess := max minExponent ((Nat.log2 num : Int) - Nat.log2 den - 53)
    let (n, d) := scaleDown num den guess
    let e := if d <<< 53 ≤ n then guess + 1 else guess
    let (n, d) := scaleDown num den e
    let m := nearestNat .even n d
    let x : Magnitude := if m = 1 <<< 53 then ⟨1 <<< 52, e + 1⟩ else ⟨m, e⟩
    if maxExponent < x.exponent then none else some x

/-- The number as a quotient of natural numbers. -/
def toQuotient (x : Magnitude) : Nat × Nat :=
  if x.exponent < 0 then (x.significand, 1 <<< (-x.exponent).toNat)
  else (x.significand <<< x.exponent.toNat, 1)

/-- The rounded product. -/
def mul (x y : Magnitude) : Option Magnitude :=
  round (x.toQuotient.1 * y.toQuotient.1) (x.toQuotient.2 * y.toQuotient.2)

/-- The rounded quotient of two numbers, of which the second is not zero. -/
def div (x y : Magnitude) : Option Magnitude :=
  round (x.toQuotient.1 * y.toQuotient.2) (x.toQuotient.2 * y.toQuotient.1)

/-- The number nearest to a decimal one, `digits * 10 ^ exponent`. -/
def ofDecimal (digits : Nat) (exponent : Int) : Option Magnitude :=
  if exponent < 0 then round digits (Nat.pow 10 (-exponent).toNat)
  else round (digits * Nat.pow 10 exponent.toNat) 1

/-- The integer nearest to the number; halfway between two, the greater one. -/
def nearestInteger (x : Magnitude) : Nat := nearestNat .up x.toQuotient.1 x.toQuotient.2

end Magnitude

/-- A finite number in double precision. -/
structure Double where
  /-- Whether the number carries a minus sign; zero may. -/
  negative : Bool
  /-- The number without its sign. -/
  magnitude : Magnitude
deriving DecidableEq, Inhabited

end ShapeGraph
