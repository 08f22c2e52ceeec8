import ShapeGraph.Files.FileTree
import ShapeGraph.Settings.Basic
import ShapeGraph.Settings.KeyPath
import ShapeGraph.Text.Segments
import ShapeGraph.Toml.Parser

/-!
# Sources of settings

Settings come from files in the working directory, from the user's own file, from a file that is asked
for, and from the environment.  Each source comes above those before it.

## Main definitions

* `Settings.layerOfFile` — what a settings file says, if it is there.
* `Settings.layerOfEnvironment` — what the environment says.
* `Settings.LoadFault` — why settings cannot be loaded.
* `Settings.combine` — the entries of all sources together.
* `Settings.load` — the settings that result.

## Implementation notes

A file is named with or without the extension that tells its format.  Only a file that is asked for
has to be there and to hold a text, but each text has to be well formed.  Keys at the top level of a
source may be paths.  Files in formats other than TOML and JSON are not looked for.
-/

set_option autoImplicit false

namespace ShapeGraph

/-- The formats of settings files that are read here. -/
inductive SettingsFormat where
  | toml
  | json
deriving DecidableEq, Inhabited

/-- The extension of files in a format. -/
def SettingsFormat.extension : SettingsFormat → String
  | .toml => "toml"
  | .json => "json"

namespace Settings

/-- What a source of settings says. -/
abbrev Layer := List (String × Setting)

/-! ## Files -/

/-- The files of the working directory that may hold settings. -/
def defaultPaths : List String := ["typegraph.toml", ".typegraph.toml", "config/typegraph.toml"]

/-- The formats in the order in which files are looked for.  The `config` library also knows YAML, INI,
RON and JSON5: it would read `typegraph.toml.yaml` where there is no `typegraph.toml`.  Such files are
left out. -/
def formats : List SettingsFormat := [.toml, .json]

/-- The extension of a file's name: what stands after its last dot, unless that is at its start. -/
def extensionOf (name : String) : Option String :=
  match (segments '.' name).reverse with
  | last :: stem :: rest => if rest.isEmpty && stem = "" then none else some last
  | _ => none

/-- The format that a file's name tells. -/
def formatOf (path : String) : Option SettingsFormat :=
  ((segments '/' path).getLast?.bind extensionOf).bind fun e => formats.find? (·.extension == e)

/-- A path with one more extension, unless it ends in no name. -/
def addExtension (path extension : String) : Option String :=
  let pieces := ((segments '/' path).reverse.dropWhile fun s => s = "" || s = ".").reverse
  match pieces.getLast? with
  | none | some ".." => none
  | some name => some (joinSegments '/' (pieces.dropLast ++ [name ++ "." ++ extension]))

/-- Without a byte order mark at the beginning. -/
def withoutMark (text : String) : String :=
  match text.toList with
  | c :: rest => if c.toNat = 0xFEFF then String.ofList rest else text
  | [] => text

/-- What a text in a format says.  A JSON text has no byte order mark. -/
def parse? (format : SettingsFormat) (text : String) : Option Layer :=
  match format with
  | .toml => Toml.parse? (withoutMark text)
  | .json => (Json.parse? Json.nestingLimit text).bind fun value =>
      value.members?.map Setting.ofJsonMembers

/-- The files that a path without extension may name, with their formats. -/
def variants (path : String) : List (String × SettingsFormat) :=
  formats.filterMap fun format => (addExtension path format.extension).map (·, format)

/-- The file that a path names, with or without its extension, and its format. -/
def locate? (tree : FileTree) (path : String) : Option (String × SettingsFormat) :=
  if tree.isFile path then (formatOf path).map (path, ·)
  else (variants path).find? fun file => tree.isFile file.1

/-- The text of the settings file at a path, and its format. -/
def textOfFile? (tree : FileTree) (path : String) : Option (String × SettingsFormat) := do
  let (file, format) ← locate? tree path
  return (← (tree.read file).toOption, format)

/-- What the settings file at a path says: `none` if it is malformed, or if it cannot be read although
it is required. -/
def layerOfFile (tree : FileTree) (required : Bool) (path : String) : Option Layer :=
  match textOfFile? tree path with
  | some (text, format) => parse? format text
  | none => if required then none else some []

/-! ## Environment -/

/-- What the names of variables with settings begin with, in lower case. -/
def variableMark : List Char := "typegraph__".toList

/-- A text in which two underscores stand for a dot. -/
def dotted : List Char → List Char
  | '_' :: '_' :: rest => '.' :: dotted rest
  | c :: rest => c :: dotted rest
  | [] => []

/-- The key that a variable sets, if it sets one. -/
def keyOfVariable? (name : String) : Option String :=
  let cs := name.toList.map Char.toLower
  if variableMark.isPrefixOf cs then some (String.ofList (dotted (cs.drop variableMark.length)))
  else none

/-- The whole number that a text stands for: decimal digits, perhaps after a sign, that fit 64 bits
with a sign. -/
def integer? (text : String) : Option Int :=
  let (negative, digits) := Extended.takeSign text.toList
  if digits ≠ [] ∧ digits.all Char.isDigit then
    let n := (Extended.digitsValue digits : Int)
    let n := if negative then -n else n
    if Int64.minValue.toInt ≤ n ∧ n ≤ Int64.maxValue.toInt then some n else none
  else none

/-- The setting that the value of a variable stands for. -/
def settingOfVariable (value : String) : Setting :=
  match Setting.lowered value with
  | "true" => .bool true
  | "false" => .bool false
  | _ =>
    match integer? value with
    | some n => .int n
    | none =>
      match Extended.parse? value with
      | some x => .float x
      | none => .text value

/-- What the environment says. -/
def layerOfEnvironment (environment : List (String × String)) : Layer :=
  environment.filterMap fun e => (keyOfVariable? e.1).map (·, settingOfVariable e.2)

/-! ## All together -/

/-- Why settings cannot be loaded. -/
inductive LoadFault where
  /-- A source is missing or malformed, or a setting is not of the right type. -/
  | invalid
  /-- A key leads to a place that a list cannot have. -/
  | noSuchPlace
deriving DecidableEq

/-- One more entry above those of the sources before. -/
def addEntry (entries : List (String × Setting)) (entry : String × Setting) :
    Except LoadFault (List (String × Setting)) :=
  match Setting.assign? entry.2 (KeyPath.ofKey entry.1) (some (.table entries)) with
  | some setting => .ok setting.entries
  | none => .error .noSuchPlace

/-- The entries of one more source above those of the sources before. -/
def addLayer (entries : List (String × Setting)) (layer : Option Layer) :
    Except LoadFault (List (String × Setting)) :=
  match layer with
  | some layer => layer.foldlM addEntry entries
  | none => .error .invalid

/-- The entries of all sources together; later ones come above.  The first source at fault decides. -/
def combine (layers : List (Option Layer)) : Except LoadFault (List (String × Setting)) :=
  layers.foldlM addLayer []

/-- What the user's file says, if it is there. -/
def layerOfUser (tree : FileTree) (userFile : Option String) : Option Layer :=
  match userFile.filter fun file => (tree.entryAt? file).isSome with
  | some file => layerOfFile tree false file
  | none => some []

/-- What the file at a path says, if one is asked for. -/
def layerOfRequest (tree : FileTree) (path : Option String) : Option Layer :=
  match path with
  | some file => layerOfFile tree true file
  | none => some []

/-- What all sources say: the files of the working directory, the user's file, the file at `path`, and
the environment. -/
def layers (tree : FileTree) (userFile path : Option String)
    (environment : List (String × String)) : List (Option Layer) :=
  defaultPaths.map (layerOfFile tree false)
    ++ [layerOfUser tree userFile, layerOfRequest tree path, some (layerOfEnvironment environment)]

/-- The settings that result from all sources. -/
def load (tree : FileTree) (userFile path : Option String)
    (environment : List (String × String)) : Except LoadFault Settings := do
  match ofEntries (← combine (layers tree userFile path environment)) with
  | some settings => return settings
  | none => .error .invalid

end Settings

end ShapeGraph
