import ShapeGraph.Settings.Setting

/-!
# Settings

What can be set about a conversion and its output, with what holds where nothing is set.

## Main definitions

* `OutputFormat` — the ways to show a finished graph.
* `Settings` — all settings.
* `Settings.ofEntries` — the settings that the entries of settings files make up.
* `Settings.limit` — the limit for the nesting of schemas.

## Implementation notes

Settings are grouped into sections.  A section is a table, or a list that gives the values of the
section in their order.  What is not set has its default, and what is unknown is ignored, but a
setting that is not of the right type is a mistake.
-/

set_option autoImplicit false

namespace ShapeGraph

/-- The ways to show a finished graph. -/
inductive OutputFormat where
  /-- Counts, top-level types and cycles. -/
  | summary
  /-- The graph as JSON. -/
  | json
  /-- A drawing. -/
  | dot
deriving DecidableEq, Inhabited

/-- The word for a format. -/
def OutputFormat.name : OutputFormat → String
  | .summary => "summary"
  | .json => "json"
  | .dot => "dot"

/-- The format that a word stands for. -/
def OutputFormat.ofName? (name : String) : Option OutputFormat :=
  [OutputFormat.summary, .json, .dot].find? (·.name == name)

/-- A setting as a format: a word in any case, or a table whose only key is one. -/
def Setting.toFormat? : Setting → Option OutputFormat
  | .text word => OutputFormat.ofName? (lowered word)
  | .table [(word, _)] => OutputFormat.ofName? (lowered word)
  | _ => none

/-- All settings. -/
structure Settings where
  /-- How deep schemas may be nested; zero for no limit. -/
  maxDepth : Nat
  /-- Whether all definitions are top-level types. -/
  includeDefinitions : Bool
  /-- The name of the root of a document. -/
  rootName : String
  /-- How the graph is shown. -/
  format : OutputFormat
  /-- Whether JSON is shown on many lines. -/
  pretty : Bool
  /-- How much is logged. -/
  logLevel : String
deriving DecidableEq

namespace Settings

/-- The settings where nothing is set. -/
def default : Settings := ⟨128, true, "Root", .summary, true, "info"⟩

instance : Inhabited Settings := ⟨default⟩

/-- The limit for the nesting of schemas. -/
def limit (s : Settings) : Option Nat := if s.maxDepth = 0 then none else some s.maxDepth

/-! ## Sections -/

/-- Whether what is set for a section is a section. -/
def isSection : Option Setting → Bool
  | none | some (.table _) | some (.list _) => true
  | _ => false

/-- The setting of a section that has a name and a place in its order. -/
def find? (group : Option Setting) (place : Nat) (name : String) : Option Setting :=
  match group with
  | some (.table entries) => entries.lookup name
  | some (.list items) => items[place]?
  | _ => none

/-- A setting as a value of the wanted type, or the default where it is not set. -/
def valueOr {α : Type} (default : α) (read : Setting → Option α) : Option Setting → Option α
  | none => some default
  | some setting => read setting

/-- The settings that the entries of settings files make up. -/
def ofEntries (entries : List (String × Setting)) : Option Settings := do
  let convert := entries.lookup "convert"
  let output := entries.lookup "output"
  let logging := entries.lookup "logging"
  if isSection convert && isSection output && isSection logging then
    return {
      maxDepth := ← valueOr default.maxDepth Setting.toCount? (find? convert 0 "max_depth")
      includeDefinitions :=
        ← valueOr default.includeDefinitions Setting.toBool? (find? convert 1 "include_definitions")
      rootName := ← valueOr default.rootName Setting.toText? (find? convert 2 "root_name")
      format := ← valueOr default.format Setting.toFormat? (find? output 0 "format")
      pretty := ← valueOr default.pretty Setting.toBool? (find? output 1 "pretty")
      logLevel := ← valueOr default.logLevel Setting.toText? (find? logging 0 "level") }
  else none

end Settings

end ShapeGraph
