import ShapeGraph.Settings.Setting

/-!
# Key paths

A key at the top level of a source of settings may lead into tables and lists: in `convert.root_name`
a name after a dot is the key of a table, and in `logging[0]` a number in brackets is a place in a
list.

## Main definitions

* `KeyStep` — one step of a path: a key or a place.
* `KeyPath.ofKey` — the path that a key means.
* `Setting.assign?` — what is there after a setting has been put at the end of a path.

## Implementation notes

A path makes its way: what is no table is replaced by a table where a key is wanted, and likewise for
lists.  Places after the end of a list are filled up with nothing.  Negative places count from the end;
there is no place before the first one, nor one that no list reaches.  A key that is no path is one key
as a whole.
-/

set_option autoImplicit false

namespace ShapeGraph

/-- One step of a path into settings. -/
inductive KeyStep where
  /-- To the value of a key. -/
  | key (name : String)
  /-- To the item at a place, counted from the end if it is negative. -/
  | place (index : Int)
deriving DecidableEq, Inhabited

/-- A way into settings. -/
abbrev KeyPath := List KeyStep

namespace KeyPath

/-! ## Reading -/

/-- Whether a character can stand in the name of a step. -/
def isNameChar (c : Char) : Bool := c.isAlphanum || c = '_' || c = '-' || c = ' '

/-- Whether a character is a blank or a tabulator. -/
def isBlank (c : Char) : Bool := c = ' ' || c = '\t'

/-- Without blanks on both sides. -/
def trimmed (cs : List Char) : List Char :=
  ((cs.dropWhile isBlank).reverse.dropWhile isBlank).reverse

/-- The number that decimal digits stand for, if there are any. -/
def digits? (cs : List Char) : Option Nat :=
  if cs ≠ [] ∧ cs.all Char.isDigit then some (Extended.digitsValue cs) else none

/-- The place that stands between brackets: a number that fits 64 bits with a sign. -/
def index? (cs : List Char) : Option Int :=
  match trimmed cs with
  | '-' :: rest =>
    (digits? rest).bind fun n => if Int64.minValue.toInt ≤ -n then some (-(n : Int)) else none
  | rest => (digits? rest).bind fun n => if n ≤ Int64.maxValue.toInt then some (n : Int) else none

/-- What is left after a character and a run of others is shorter. -/
private theorem length_dropWhile_lt (p : Char → Bool) (cs : List Char) :
    (cs.dropWhile p).length < cs.length + 1 :=
  Nat.lt_succ_of_le (List.dropWhile_suffix p).length_le

/-- The steps that are written as `.name` or `[place]`, one after the other. -/
def steps? : List Char → Option KeyPath
  | [] => some []
  | '.' :: rest =>
    let name := rest.takeWhile isNameChar
    if name = [] then none
    else (steps? (rest.dropWhile isNameChar)).map (.key (String.ofList name) :: ·)
  | '[' :: rest =>
    if rest.contains ']' then
      (index? (rest.takeWhile (· ≠ ']'))).bind fun i =>
        (steps? (rest.dropWhile (· ≠ ']')).tail).map (.place i :: ·)
    else none
  | _ => none
termination_by cs => cs.length
decreasing_by
  · exact length_dropWhile_lt _ _
  · exact Nat.lt_of_le_of_lt (by simp) (length_dropWhile_lt (· ≠ ']') rest)

/-- The path that a key means: a name and further steps, or else the key as it stands. -/
def ofKey (key : String) : KeyPath := (steps? ('.' :: key.toList)).getD [.key key]

end KeyPath

namespace Setting

/-! ## Places -/

/-- The last place that a list can have. -/
def maxPlace : Nat := 0x4000000

/-- How many items stand before a place, in a list of some length or one that is filled up to it. -/
def position? (index : Int) (length : Nat) : Option Nat :=
  if 0 ≤ index then if index.natAbs ≤ maxPlace then some index.natAbs else none
  else if index.natAbs ≤ length then some (length - index.natAbs) else none

/-- A list with the item at a place changed; it is filled up if it does not reach to that place. -/
def changeItem? (index : Int) (change : Option Setting → Option Setting) (items : List Setting) :
    Option (List Setting) := do
  let i ← position? index items.length
  let items := items ++ List.replicate (i + 1 - items.length) .null
  return items.set i (← change items[i]?)

/-! ## Assignments -/

/-- What is there after a setting has been put at the end of a path into what was there before, unless
there is no such place.  At the value of a key, a table comes above what is there; at a place, the
setting replaces it. -/
def assign? (value : Setting) : KeyPath → Option Setting → Option Setting
  | [], below => some (overlay value below)
  | .key name :: rest, below => do
    let entries := (below.map entries).getD []
    let key := lowered name
    return .table (setEntry key (← assign? value rest (entries.lookup key)) entries)
  | [.place index], below =>
    (changeItem? index (fun _ => some value) ((below.map items).getD [])).map .list
  | .place index :: rest, below =>
    (changeItem? index (assign? value rest) ((below.map items).getD [])).map .list

end Setting

end ShapeGraph
