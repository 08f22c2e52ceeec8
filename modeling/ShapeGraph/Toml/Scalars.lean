import ShapeGraph.Json.Parser
import ShapeGraph.Settings.Setting
import ShapeGraph.Toml.Moments

/-!
# Scalars of settings files

Scalars are numbers, truth values, dates and times.

## Main definitions

* `Toml.takeScalar` — the scalar at the beginning of some characters.

## Implementation notes

A number or truth value is a run of letters, digits and a few other characters, and is read as a
whole.  Digits may have single underscores between them.  Decimal numbers have no leading zeros, and
whole numbers fit 64 bits with a sign.
-/

set_option autoImplicit false

namespace ShapeGraph

namespace Toml

/-- Whether a character can be part of a number or truth value. -/
def isScalarChar (c : Char) : Bool :=
  c.isAlphanum || c = '_' || c = '+' || c = '-' || c = '.' || c = ':'

/-- Digits without the single underscores that may stand between them. -/
def plainDigits? (isDigit : Char → Bool) : List Char → Option (List Char)
  | [] => none
  | [c] => if isDigit c then some [c] else none
  | c :: '_' :: rest => if isDigit c then (plainDigits? isDigit rest).map (c :: ·) else none
  | c :: d :: rest => if isDigit c then (plainDigits? isDigit (d :: rest)).map (c :: ·) else none

/-- Decimal digits without underscores and without leading zeros. -/
def decimalDigits? (cs : List Char) : Option (List Char) := do
  let digits ← plainDigits? Char.isDigit cs
  if digits.length > 1 ∧ digits.head? = some '0' then none else some digits

/-- A whole number that fits 64 bits with a sign. -/
def bounded? (n : Int) : Option Setting :=
  if Int64.minValue.toInt ≤ n ∧ n ≤ Int64.maxValue.toInt then some (.int n) else none

/-- The whole number with digits in some base. -/
def inBase? (base : Nat) (cs : List Char) : Option Setting := do
  let isDigit (c : Char) : Bool := (Json.hexValue? c).any (· < base)
  let digits ← plainDigits? isDigit cs
  bounded? (digits.foldl (fun n c => n * base + ((Json.hexValue? c).getD 0 : Nat)) (0 : Int))

/-- The exponent of a number, none if it has none. -/
def exponent? : List Char → Option Int
  | [] => some 0
  | _ :: rest => do
    let (negative, digits) := Extended.takeSign rest
    let digits ← plainDigits? Char.isDigit digits
    let n := (Extended.digitsValue digits : Int)
    some (if negative then -n else n)

/-- The digits after the point of a number, none if it has no point. -/
def fraction? : List Char → Option (List Char)
  | [] => some []
  | _ :: rest => plainDigits? Char.isDigit rest

/-- The number with a point or an exponent that some characters stand for, unless it is too great. -/
def fractional? (negative : Bool) (cs : List Char) : Option Setting := do
  let isMantissa (c : Char) : Bool := c ≠ 'e' && c ≠ 'E'
  let mantissa := cs.takeWhile isMantissa
  let exponent ← exponent? (cs.dropWhile isMantissa)
  let whole ← decimalDigits? (mantissa.takeWhile (· ≠ '.'))
  let fraction ← fraction? (mantissa.dropWhile (· ≠ '.'))
  let x := Extended.ofDecimal negative (Extended.digitsValue (whole ++ fraction))
    (exponent - fraction.length)
  if x = .infinite false then none else some (.float x)

/-- The decimal number or special value that some characters after a sign stand for. -/
def signed? (negative : Bool) (cs : List Char) : Option Setting :=
  if cs = ['i', 'n', 'f'] then some (.float (.infinite negative))
  else if cs = ['n', 'a', 'n'] then some (.float .notANumber)
  else
    match decimalDigits? cs with
    | some digits =>
      let n := (Extended.digitsValue digits : Int)
      bounded? (if negative then -n else n)
    | none => fractional? negative cs

/-- The number or truth value that some characters stand for. -/
def scalar? : List Char → Option Setting
  | ['t', 'r', 'u', 'e'] => some (.bool true)
  | ['f', 'a', 'l', 's', 'e'] => some (.bool false)
  | '0' :: 'x' :: rest => inBase? 16 rest
  | '0' :: 'o' :: rest => inBase? 8 rest
  | '0' :: 'b' :: rest => inBase? 2 rest
  | cs => signed? (Extended.takeSign cs).1 (Extended.takeSign cs).2

/-- The number, truth value, date or time at the beginning, and what follows.  A date or time is its
text. -/
def takeScalar (cs : List Char) : Option (Setting × List Char) :=
  match takeMoment cs with
  | some (text, rest) => some (.text (String.ofList text), rest)
  | none => (scalar? (cs.takeWhile isScalarChar)).map (·, cs.dropWhile isScalarChar)

end Toml

end ShapeGraph
