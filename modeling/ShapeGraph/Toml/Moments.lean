import ShapeGraph.Decimal.Extended

/-!
# Dates and times of settings files

A date, a time, or both stand for their text in one spelling.

## Main definitions

* `Toml.takeDate` — a date of the calendar.
* `Toml.takeTime` — a time of day.
* `Toml.takeMoment` — a date, a time, or both with an offset.

## Implementation notes

Between a date and a time stands a `T`, in either case, or a blank, and in the spelling that is kept
always a `T`.  Of a fraction of a second nine digits count, and zeros at its end do not.
-/

set_option autoImplicit false

namespace ShapeGraph

namespace Toml

/-! ## Dates -/

/-- The number that the digits of a fixed width stand for. -/
def fixed? (digits : List Char) : Option Nat :=
  if digits.all Char.isDigit then some (Extended.digitsValue digits) else none

/-- Whether a year has a day more than others. -/
def isLeapYear (year : Nat) : Bool := year % 4 = 0 && (year % 100 ≠ 0 || year % 400 = 0)

/-- How many days a month has. -/
def daysOfMonth (year month : Nat) : Nat :=
  if month = 2 then if isLeapYear year then 29 else 28
  else if month = 4 ∨ month = 6 ∨ month = 9 ∨ month = 11 then 30
  else 31

/-- The date at the beginning, and what follows. -/
def takeDate : List Char → Option (List Char × List Char)
  | a :: b :: c :: d :: '-' :: e :: f :: '-' :: g :: h :: rest => do
    let year ← fixed? [a, b, c, d]
    let month ← fixed? [e, f]
    let day ← fixed? [g, h]
    if 1 ≤ month ∧ month ≤ 12 ∧ 1 ≤ day ∧ day ≤ daysOfMonth year month then
      some ([a, b, c, d, '-', e, f, '-', g, h], rest)
    else none
  | _ => none

/-! ## Times -/

/-- The fraction of a second at the beginning, empty if there is none, and what follows. -/
def takeFraction (cs : List Char) : List Char × List Char :=
  match cs with
  | '.' :: rest =>
    let digits := rest.takeWhile Char.isDigit
    let kept := ((digits.take 9).reverse.dropWhile (· = '0')).reverse
    if digits = [] then ([], cs)
    else (if kept = [] then [] else '.' :: kept, rest.dropWhile Char.isDigit)
  | _ => ([], cs)

/-- The time at the beginning, and what follows. -/
def takeTime : List Char → Option (List Char × List Char)
  | a :: b :: ':' :: c :: d :: ':' :: e :: f :: rest => do
    let hour ← fixed? [a, b]
    let minute ← fixed? [c, d]
    let second ← fixed? [e, f]
    if hour < 24 ∧ minute < 60 ∧ second ≤ 60 then
      let (fraction, rest) := takeFraction rest
      some ([a, b, ':', c, d, ':', e, f] ++ fraction, rest)
    else none
  | _ => none

/-- The offset after a time, empty if there is none, and what follows.  No offset is negative if it
is zero. -/
def takeOffset : List Char → Option (List Char × List Char)
  | 'Z' :: rest => some (['Z'], rest)
  | 'z' :: rest => some (['Z'], rest)
  | sign :: a :: b :: ':' :: c :: d :: rest =>
    if sign = '+' ∨ sign = '-' then do
      let hour ← fixed? [a, b]
      let minute ← fixed? [c, d]
      let sign := if hour = 0 ∧ minute = 0 then '+' else sign
      if hour < 24 ∧ minute < 60 then some ([sign, a, b, ':', c, d], rest) else none
    else some ([], sign :: a :: b :: ':' :: c :: d :: rest)
  | rest => some ([], rest)

/-! ## Moments -/

/-- Whether a character can stand between a date and a time. -/
def isDateEnd (c : Char) : Bool := c = 'T' || c = 't' || c = ' '

/-- The time and the offset after a date, if a time stands there, and what follows. -/
def takeTimeOfDate (cs : List Char) : Option (List Char × List Char) :=
  match cs with
  | c :: rest =>
    if isDateEnd c then
      match takeTime rest with
      | some (time, rest) => (takeOffset rest).map fun (offset, rest) => ('T' :: time ++ offset, rest)
      | none => some ([], cs)
    else some ([], cs)
  | [] => some ([], cs)

/-- The date, the time, or both at the beginning, and what follows. -/
def takeMoment (cs : List Char) : Option (List Char × List Char) :=
  match takeDate cs with
  | some (date, rest) => (takeTimeOfDate rest).map fun (time, rest) => (date ++ time, rest)
  | none => takeTime cs

end Toml

end ShapeGraph
