import ShapeGraph.Settings.Setting

/-!
# Tables of settings files

A settings file is a list of statements: headers, each of which opens a table, and entries of the
table that is open.

## Main definitions

* `Toml.Node` — a table under construction.
* `Toml.putDotted` — put a value under a dotted key.
* `Toml.openTable`, `Toml.openItem` — open the table of a header.
* `Toml.Statement`, `Toml.collect` — the table that statements make up.

## Implementation notes

No key has two values, and no table is opened twice.  A table that only stands on the way to another
one may still be opened.  A dotted key may lead through such a table, or through the last table of a
list, to tables of its own, but puts no value right into them; it never leads into a table that a
header has opened, and nothing goes into a value that is written as a whole.
-/

set_option autoImplicit false

namespace ShapeGraph

namespace Toml

/-- How a table has come into being. -/
inductive Origin where
  /-- A header opened it. -/
  | header
  /-- It stands on the way to a table that a header opened. -/
  | implied
  /-- It stands on the way to the value of a dotted key. -/
  | dotted
deriving DecidableEq, Inhabited

/-- What stands under a key while a table is under construction. -/
inductive Node where
  /-- A value written as a whole. -/
  | value (setting : Setting)
  /-- A table. -/
  | table (origin : Origin) (entries : List (String × Node))
  /-- The tables of a list, each opened by a header of its own. -/
  | tables (items : List (List (String × Node)))
deriving Inhabited

/-- The entries of a table under construction. -/
abbrev Entries := List (String × Node)

/-- Set what stands under a key. -/
def setNode (key : String) (node : Node) : Entries → Entries
  | [] => [(key, node)]
  | (k, n) :: rest => if k = key then (k, node) :: rest else (k, n) :: setNode key node rest

/-! ## Entries -/

/-- Change the last element of a list. -/
def changeLast {α : Type} (f : α → Option α) (items : List α) : Option (List α) :=
  match items.getLast? with
  | some last => (f last).map fun last => items.dropLast ++ [last]
  | none => none

/-- Put a value under a dotted key.  The table at hand may take the value itself only if it is `free`:
the table in which the key starts, or one that stands on the way to the value of a dotted key. -/
def putFrom (value : Node) : Bool → List String → Entries → Option Entries
  | _, [], _ => none
  | free, [key], entries =>
    if free && (entries.lookup key).isNone then some (entries ++ [(key, value)]) else none
  | _, key :: next :: rest, entries =>
    match entries.lookup key with
    | none =>
      (putFrom value true (next :: rest) []).map fun inner =>
        setNode key (.table .dotted inner) entries
    | some (.table .header _) => none
    | some (.table origin inner) =>
      (putFrom value (origin = .dotted) (next :: rest) inner).map fun inner =>
        setNode key (.table origin inner) entries
    | some (.tables items) =>
      (changeLast (putFrom value false (next :: rest)) items).map fun items =>
        setNode key (.tables items) entries
    | some (.value _) => none

/-- Put a value under a dotted key. -/
def putDotted (value : Node) (path : List String) (entries : Entries) : Option Entries :=
  putFrom value true path entries

/-! ## Headers -/

/-- Change the table that some keys lead to; in a list of tables the last one is meant. -/
def changeAt (f : Entries → Option Entries) : List String → Entries → Option Entries
  | [], entries => f entries
  | key :: rest, entries =>
    match entries.lookup key with
    | none => (changeAt f rest []).map fun inner => setNode key (.table .implied inner) entries
    | some (.table origin inner) =>
      (changeAt f rest inner).map fun inner => setNode key (.table origin inner) entries
    | some (.tables items) =>
      (changeLast (changeAt f rest) items).map fun items => setNode key (.tables items) entries
    | some (.value _) => none

/-- Open the table of a key. -/
def openTable (key : String) (entries : Entries) : Option Entries :=
  match entries.lookup key with
  | none => some (entries ++ [(key, .table .header [])])
  | some (.table .implied inner) => some (setNode key (.table .header inner) entries)
  | some _ => none

/-- Open one more table in the list of a key. -/
def openItem (key : String) (entries : Entries) : Option Entries :=
  match entries.lookup key with
  | none => some (entries ++ [(key, .tables [[]])])
  | some (.tables items) => some (setNode key (.tables (items ++ [[]])) entries)
  | some _ => none

/-! ## Settings -/

mutual

/-- What a finished node stands for. -/
def Node.toSetting : Node → Setting
  | .value setting => setting
  | .table _ entries => .table (settingsOf entries)
  | .tables items => .list (tablesOf items)

/-- The entries of a finished table. -/
def settingsOf : List (String × Node) → List (String × Setting)
  | [] => []
  | (key, node) :: rest => (key, node.toSetting) :: settingsOf rest

/-- The finished tables of a list. -/
def tablesOf : List (List (String × Node)) → List Setting
  | [] => []
  | entries :: rest => .table (settingsOf entries) :: tablesOf rest

end

/-! ## Statements -/

/-- A statement of a settings file. -/
inductive Statement where
  /-- The header of a table. -/
  | header (path : List String)
  /-- The header of one more table in a list. -/
  | itemHeader (path : List String)
  /-- An entry of the open table. -/
  | entry (path : List String) (value : Setting)
deriving Inhabited

/-- Change what the last of some keys leads to, in the table that the others lead to. -/
def changeUnder (f : String → Entries → Option Entries) (path : List String) (entries : Entries) :
    Option Entries :=
  match path.getLast? with
  | some key => changeAt (f key) path.dropLast entries
  | none => none

/-- The entries that statements make up, after some others, while the table at a path is open. -/
def collectFrom : List String → Entries → List Statement → Option Entries
  | _, entries, [] => some entries
  | _, entries, .header path :: rest => do
    collectFrom path (← changeUnder openTable path entries) rest
  | _, entries, .itemHeader path :: rest => do
    collectFrom path (← changeUnder openItem path entries) rest
  | here, entries, .entry path value :: rest => do
    collectFrom here (← changeAt (putDotted (.value value) path) here entries) rest

/-- The settings that statements make up. -/
def collect (statements : List Statement) : Option (List (String × Setting)) :=
  (collectFrom [] [] statements).map settingsOf

end Toml

end ShapeGraph
