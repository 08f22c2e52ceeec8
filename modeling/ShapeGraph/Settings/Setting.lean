import ShapeGraph.Decimal.Extended
import ShapeGraph.Json.Basic

/-!
# Single settings

What a settings file or the environment says, before it is known what is meant by it.

## Main definitions

* `Setting` — a value of a settings file.
* `Setting.overlay` — settings from two sources, of which one comes above the other.
* `Setting.toBool?`, `Setting.toCount?`, `Setting.toText?` — a setting as a value of the type that is
  wanted.

## Implementation notes

Tables of two sources are overlaid key by key, where keys that differ in case only are the same;
anything else replaces what is below it.  Settings are lenient about types: a text may stand for a
number or a truth value, and the other way round.
-/

set_option autoImplicit false

namespace ShapeGraph

/-- A value of a settings file. -/
inductive Setting where
  /-- Explicitly nothing. -/
  | null
  | bool (value : Bool)
  | int (value : Int)
  | float (value : Extended)
  | text (value : String)
  | list (items : List Setting)
  | table (entries : List (String × Setting))
deriving Inhabited

namespace Setting

/-- The entries of a table; none of anything else. -/
def entries : Setting → List (String × Setting)
  | .table entries => entries
  | _ => []

/-- The items of a list; none of anything else. -/
def items : Setting → List Setting
  | .list items => items
  | _ => []

/-- A text with its letters from A to Z in lower case. -/
def lowered (text : String) : String := String.ofList (text.toList.map Char.toLower)

/-- Set the value of a key in a table: at its old place if the key is there, else at the end. -/
def setEntry (key : String) (value : Setting) : List (String × Setting) → List (String × Setting)
  | [] => [(key, value)]
  | (k, v) :: rest => if k = key then (k, value) :: rest else (k, v) :: setEntry key value rest

/-! ## Overlays -/

mutual

/-- A setting above what is there so far.  An empty table above anything says nothing. -/
def overlay : Setting → Option Setting → Setting
  | .table [], below => below.getD (.table [])
  | .table (entry :: rest), below =>
    .table (overlayEntries (entry :: rest) ((below.map Setting.entries).getD []))
  | other, _ => other

/-- The entries of a table above those of another.  Keys are taken in lower case. -/
def overlayEntries : List (String × Setting) → List (String × Setting) → List (String × Setting)
  | [], below => below
  | (key, value) :: rest, below =>
    overlayEntries rest
      (setEntry (lowered key) (overlay value (below.lookup (lowered key))) below)

end

/-! ## Types -/

/-- The number that decimal digits, perhaps after a plus sign, stand for, if it fits 64 bits. -/
def count? (text : String) : Option Nat :=
  let digits := match text.toList with
    | '+' :: rest => rest
    | cs => cs
  if digits ≠ [] ∧ digits.all Char.isDigit then
    let n := Extended.digitsValue digits
    if n ≤ Extended.maxCount then some n else none
  else none

/-- The truth value that a word stands for. -/
def truth? (word : String) : Option Bool :=
  match lowered word with
  | "1" | "true" | "on" | "yes" => some true
  | "0" | "false" | "off" | "no" => some false
  | _ => none

/-- A setting as a truth value. -/
def toBool? : Setting → Option Bool
  | .bool b => some b
  | .int n => some (n ≠ 0)
  | .float x => some (!x.isZero)
  | .text s => truth? s
  | _ => none

/-- A setting as an unsigned number of 64 bits. -/
def toCount? : Setting → Option Nat
  | .bool b => some b.toNat
  | .int n => if 0 ≤ n then some n.toNat else none
  | .float x => some x.nearestCount
  | .text s =>
    match lowered s with
    | "true" | "on" | "yes" => some 1
    | "false" | "off" | "no" => some 0
    | _ => count? s
  | _ => none

/-- A setting as a text. -/
def toText? : Setting → Option String
  | .bool b => some (if b then "true" else "false")
  | .int n => some (toString n)
  | .float x => some x.toText
  | .text s => some s
  | _ => none

/-- The setting that a whole number stands for: a number in double precision if it does not fit 64 bits
with a sign. -/
def ofInteger (n : Int) : Setting :=
  if Int64.minValue.toInt ≤ n ∧ n ≤ Int64.maxValue.toInt then .int n
  else .float (Extended.ofDecimal (decide (n < 0)) n.natAbs 0)

end Setting

mutual

/-- The setting that a JSON value stands for. -/
def Setting.ofJson : Json → Setting
  | .null => .null
  | .bool b => .bool b
  | .num (.int n) => ofInteger n
  | .num (.float x) => .float (.finite x)
  | .str s => .text s
  | .arr items => .list (ofJsonItems items)
  | .obj members => .table (ofJsonMembers members)

/-- The settings that JSON values stand for. -/
def Setting.ofJsonItems : List Json → List Setting
  | [] => []
  | v :: rest => ofJson v :: ofJsonItems rest

/-- The entries that the members of a JSON object stand for. -/
def Setting.ofJsonMembers : List (String × Json) → List (String × Setting)
  | [] => []
  | (k, v) :: rest => (k, ofJson v) :: ofJsonMembers rest

end

end ShapeGraph
