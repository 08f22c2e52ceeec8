import ShapeGraph.Decimal.Shortest

/-!
# Numbers of JSON texts

An integer that fits 64 bits, signed or unsigned, is kept as it is.  Any other number, one with a
fraction or an exponent among them, is a double precision number.

## Main definitions

* `Number` — an integer or a double precision number.
* `Number.render` — its text.
* `Literal` — the parts of a number as it is written.
* `Literal.value` — the number that a literal stands for.

## Implementation notes

Reading a fractional number is defined by its steps, since they fix the last bit: the digits are
gathered into a whole number as long as it fits 64 bits, further digits only move the decimal point,
and the whole number is then multiplied or divided once by a power of ten that is itself rounded.
-/

set_option autoImplicit false

namespace ShapeGraph

/-- A number of a JSON text. -/
inductive Number where
  /-- An integer of 64 bits. -/
  | int (value : Int)
  /-- Any other number. -/
  | float (value : Double)
deriving DecidableEq, Inhabited

/-- The text of a number. -/
def Number.render : Number → String
  | .int i => toString i
  | .float x => x.toScientific

/-- A number as it is written: digits before and after the decimal point, and the exponent with its
sign.  An exponent that is left out is `none`. -/
structure Literal where
  /-- Whether a minus sign stands in front. -/
  negative : Bool
  /-- The digits before the point. -/
  whole : List Nat
  /-- The digits after the point, if there is one. -/
  fraction : Option (List Nat)
  /-- The exponent: whether it is negative, and its digits. -/
  exponent : Option (Bool × List Nat)

namespace Literal

/-- The greatest unsigned number of 64 bits. -/
def maxUnsigned : Nat := UInt64.size - 1

/-- The number that a list of decimal digits stands for. -/
def ofDigits (digits : List Nat) : Nat := digits.foldl (fun n d => 10 * n + d) 0

/-- Append digits while the result fits 64 bits; also the digits that are left over. -/
def gather : Nat → List Nat → Nat × List Nat
  | n, [] => (n, [])
  | n, d :: rest => if 10 * n + d ≤ maxUnsigned then gather (10 * n + d) rest else (n, d :: rest)

/-- The digits of the literal as one number of 64 bits, and the power of ten by which the decimal
point has moved. -/
def scaled (l : Literal) : Nat × Int :=
  let (n, surplus) := gather 0 l.whole
  let fraction := l.fraction.getD []
  let (m, rest) := gather n fraction
  (m, (surplus.length : Int) - ((fraction.length : Int) - rest.length))

/-- The greatest power of ten that is multiplied or divided by. -/
def maxPower : Nat := 308

/-- Divide so many times by the greatest power of ten. -/
def shrink : Nat → Magnitude → Option Magnitude
  | 0, x => some x
  | k + 1, x =>
    if x.isZero then some x
    else ((Magnitude.ofDecimal 1 maxPower).bind x.div).bind (shrink k)

/-- The magnitude `x * 10 ^ e`, by one multiplication, or by divisions by powers of ten of which all
but the last are the greatest; `none` when it is too large. -/
def scale (x : Magnitude) (e : Int) : Option Magnitude :=
  if 0 ≤ e then
    if e ≤ maxPower then (Magnitude.ofDecimal 1 e).bind x.mul
    else if x.isZero then some x else none
  else
    let steps := (e.natAbs - 1) / maxPower
    (shrink steps x).bind fun y =>
      if y.isZero then some y
      else (Magnitude.ofDecimal 1 (e.natAbs - steps * maxPower : Nat)).bind y.div

/-- The exponent that is written, if it fits 32 bits. -/
def writtenExponent (negative : Bool) (digits : List Nat) : Option Int :=
  let n := ofDigits digits
  if n ≤ Int32.maxValue.toInt then some (if negative then -(n : Int) else n) else none

/-- The double precision number that the literal stands for; `none` when it is too large. -/
def toDouble (l : Literal) : Option Double :=
  let (n, point) := l.scaled
  match l.exponent with
  | none => build n point
  | some (negative, digits) =>
    match writtenExponent negative digits with
    | some e => build n (point + e)
    | none => if n ≠ 0 ∧ negative = false then none else some ⟨l.negative, .zero⟩
where
  /-- The number `n * 10 ^ e` with the literal's sign. -/
  build (n : Nat) (e : Int) : Option Double :=
    (Magnitude.round n 1).bind fun x => (scale x e).map (⟨l.negative, ·⟩)

/-- The number that the literal stands for; `none` when it is too large for double precision. -/
def value (l : Literal) : Option Number :=
  if l.fraction.isSome || l.exponent.isSome then l.toDouble.map .float
  else
    let n := ofDigits l.whole
    if l.negative then
      if n = 0 ∨ -(n : Int) < Int64.minValue.toInt then l.toDouble.map .float
      else some (.int (-(n : Int)))
    else if n ≤ maxUnsigned then some (.int n)
    else l.toDouble.map .float

end Literal

end ShapeGraph
