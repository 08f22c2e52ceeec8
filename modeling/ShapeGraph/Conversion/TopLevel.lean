import ShapeGraph.Json.Basic
import ShapeGraph.Order.SortedMap
import ShapeGraph.Reference.Basic

/-!
# Top-level types

Which places of a document are converted, and under which names.

## Main definitions

* `definitionRefs` — the definitions of a document.
* `topLevelRefs` — these together with entry points.
-/

set_option autoImplicit false

namespace ShapeGraph

/-- A reference to each definition of a document, by name. -/
def definitionRefs (document : Json) (address : String) : SortedMap String Reference :=
  match (document.get? "definitions").bind Json.members? with
  | some members =>
    .ofList (members.map fun m => (m.1, (Reference.root address).push (.definition m.1)))
  | none => ∅

/-- The entry points and, if wanted, the definitions of a document.  An entry point takes the place
of a definition of the same name. -/
def topLevelRefs (document : Json) (address : String) (entryPoints : SortedMap String Reference)
    (includeDefinitions : Bool) : SortedMap String Reference :=
  let definitions := if includeDefinitions then definitionRefs document address else ∅
  definitions.insertAll entryPoints.entries

end ShapeGraph
