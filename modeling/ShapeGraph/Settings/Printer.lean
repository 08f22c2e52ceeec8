import ShapeGraph.Files.FileTree
import ShapeGraph.Settings.Basic
import ShapeGraph.Toml.Strings

/-!
# Writing settings

## Main definitions

* `Settings.toText` — the text of a settings file that sets everything.
* `Settings.save` — write that file.

## Implementation notes

Whole numbers in settings files have 64 bits with a sign, so a greater limit cannot be saved.
-/

set_option autoImplicit false

namespace ShapeGraph

/-- Why settings could not be saved. -/
inductive SaveFault where
  /-- The limit is too large for a settings file. -/
  | limitTooLarge
  /-- The file could not be written. -/
  | unwritable (fault : FileFault)
deriving DecidableEq

namespace Settings

/-- The greatest limit that can be saved. -/
def maxSaved : Nat := Int64.maxValue.toInt.toNat

/-- A truth value in a settings file. -/
def truthText (b : Bool) : String := if b then "true" else "false"

/-- A line that sets a value. -/
def line (name value : String) : String := name ++ " = " ++ value ++ "\n"

/-- The text of a settings file that sets everything. -/
def toText (s : Settings) : String :=
  "[convert]\n"
    ++ line "max_depth" (toString s.maxDepth)
    ++ line "include_definitions" (truthText s.includeDefinitions)
    ++ line "root_name" (Toml.writeString s.rootName)
    ++ "\n[output]\n"
    ++ line "format" (Toml.writeString s.format.name)
    ++ line "pretty" (truthText s.pretty)
    ++ "\n[logging]\n"
    ++ line "level" (Toml.writeString s.logLevel)

/-- The files after the settings have been saved at a path. -/
def save (s : Settings) (tree : FileTree) (path : String) : Except SaveFault FileTree :=
  if maxSaved < s.maxDepth then .error .limitTooLarge
  else
    match tree.write path s.toText with
    | .ok tree => .ok tree
    | .error fault => .error (.unwritable fault)

end Settings

end ShapeGraph
