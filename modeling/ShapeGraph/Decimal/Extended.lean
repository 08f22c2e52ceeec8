import ShapeGraph.Decimal.Shortest

/-!
# Double precision numbers with infinities

Where a number is read from a text that nobody has checked, it may be too large for double precision,
or the word for no number at all.

## Main definitions

* `Extended` — a double precision number, an infinity, or no number.
* `Extended.ofDecimal` — the number nearest to a decimal one.
* `Extended.parse?` — the number that a text stands for.
* `Extended.nearestCount` — the nearest unsigned number of 64 bits.
* `Extended.toText` — the number without exponent.
-/

set_option autoImplicit false

namespace ShapeGraph

/-- A double precision number, or what takes the place of one. -/
inductive Extended where
  /-- A finite number. -/
  | finite (value : Double)
  /-- A number beyond the greatest one. -/
  | infinite (negative : Bool)
  /-- No number. -/
  | notANumber
deriving DecidableEq, Inhabited

namespace Extended

/-- The number nearest to `digits * 10 ^ exponent`. -/
def ofDecimal (negative : Bool) (digits : Nat) (exponent : Int) : Extended :=
  let point := exponent + (Nat.toDigits 10 digits).length
  if digits = 0 ∨ point < -400 then .finite ⟨negative, .zero⟩
  else if 400 < point then .infinite negative
  else
    match Magnitude.ofDecimal digits exponent with
    | some magnitude => .finite ⟨negative, magnitude⟩
    | none => .infinite negative

/-- Whether the number is zero. -/
def isZero : Extended → Bool
  | .finite x => x.magnitude.isZero
  | _ => false

/-- The greatest unsigned number of 64 bits. -/
def maxCount : Nat := UInt64.size - 1

/-- The unsigned number of 64 bits that is nearest; halfway between two, the greater one.  What is no
number counts as zero. -/
def nearestCount : Extended → Nat
  | .finite x => if x.negative then 0 else min x.magnitude.nearestInteger maxCount
  | .infinite negative => if negative then 0 else maxCount
  | .notANumber => 0

/-- The text of the number, without exponent. -/
def toText : Extended → String
  | .finite x => x.toPlain
  | .infinite negative => if negative then "-inf" else "inf"
  | .notANumber => "NaN"

/-! ## Reading -/

/-- A sign at the beginning: whether it is a minus sign, and what follows. -/
def takeSign : List Char → Bool × List Char
  | '+' :: rest => (false, rest)
  | '-' :: rest => (true, rest)
  | cs => (false, cs)

/-- The number that some decimal digits stand for. -/
def digitsValue (cs : List Char) : Nat := cs.foldl (fun n c => 10 * n + (c.toNat - 48)) 0

/-- The number of an exponent's text: digits, perhaps after a sign. -/
def exponentOf? (cs : List Char) : Option Int :=
  let (negative, digits) := takeSign cs
  if digits ≠ [] ∧ digits.all Char.isDigit then
    some (if negative then -(digitsValue digits : Int) else digitsValue digits)
  else none

/-- The number that digits, perhaps with a point among them and an exponent, stand for. -/
def unsigned? (negative : Bool) (cs : List Char) : Option Extended := do
  let mantissa := cs.takeWhile fun c => c ≠ 'e' && c ≠ 'E'
  let exponent ← match cs.dropWhile fun c => c ≠ 'e' && c ≠ 'E' with
    | [] => some 0
    | _ :: rest => exponentOf? rest
  let whole := mantissa.takeWhile (· ≠ '.')
  let fraction := (mantissa.dropWhile (· ≠ '.')).drop 1
  let digits := whole ++ fraction
  if digits ≠ [] ∧ digits.all Char.isDigit then
    some (ofDecimal negative (digitsValue digits) (exponent - fraction.length))
  else none

/-- The number that a text stands for: decimal digits with an optional sign, point and exponent, or a
word for infinity or for no number. -/
def parse? (text : String) : Option Extended :=
  let (negative, cs) := takeSign text.toList
  match String.ofList (cs.map Char.toLower) with
  | "inf" | "infinity" => some (.infinite negative)
  | "nan" => some .notANumber
  | _ => unsigned? negative cs

end Extended

end ShapeGraph
