import ShapeGraph.Conversion.Convert
import ShapeGraph.Conversion.TopLevel
import ShapeGraph.Documents.Memory

/-!
# Running conversions

## Main definitions

* `nestingBound` — how deep schemas can be nested at most in values of some extent.
* `Conversion.convertAt` — convert the fragment at a place.
* `Conversion.convertAll` — convert every named reference and register its node.
* `schemaGraph` — the graph of a single document.

## Implementation notes

A conversion without a limit still has a budget, but one that no conversion can use up.  Between two
visits of the same path some schema has to be met for the first time, so the nesting is at most
quadratic in the number of paths; and a path is an address with a list of at most about twice as many
steps as documents are deep, of which each is one of a number of steps that is linear in the size of the
documents.
-/

set_option autoImplicit false

namespace ShapeGraph

/-- A bound for the nesting of schemas in a conversion of values of some extent. -/
def nestingBound (extent : Extent) : Nat :=
  Nat.pow (extent.addresses + 1) 2 * Nat.pow (8 * extent.size + 8) (4 * extent.depth + 16)

/-- The number of levels that are left at some depth: up to the limit, or up to a bound that is never
reached. -/
def levelsLeft (limit : Option Nat) (extent : Extent) (depth : Nat) : Nat :=
  match limit with
  | some l => l + 1 - depth
  | none => nestingBound extent

/-- The default limit for the nesting of schemas. -/
def defaultLimit : Option Nat := some 128

namespace Conversion

variable {σ : Type} [DocumentSource σ]

/-- The node of the fragment at a place that is itself at some depth. -/
def convertAt (limit : Option Nat) (extent : Extent) (place : Place) (hints : Names)
    (depth : Nat) : Conversion σ NodeId :=
  let budget := levelsLeft limit extent depth
  toType (limit.getD budget) budget place hints

/-- The place that a named reference leads to: in the root document, or in one that is fetched. -/
def topLevelPlace (root : Json) (rootAddress : String) (reference : Reference) :
    Conversion σ Place := do
  let document ← if reference.address = rootAddress then pure root else fetch reference.address
  ofResult ((Place.ofDocument reference.address document).lookup reference)

/-- Convert the target of a named reference and register its node under the name. -/
def convertTopLevel (limit : Option Nat) (extent : Extent) (root : Json) (rootAddress : String)
    (name : String) (reference : Reference) : Conversion σ Unit := do
  let place ← topLevelPlace root rootAddress reference
  let t ← convertAt limit extent place (.inferred name) 0
  onGraph fun g => ((), g.addTopLevel name t)

/-- The extent of all that a conversion can meet. -/
def extentOf (documents : σ) (root : Json) (rootAddress : String) (references : List Reference) :
    Extent :=
  (references.map Extent.ofReference).foldl .join
    ((DocumentSource.extent documents).join (.ofDocument rootAddress root))

/-- Convert the target of every named reference, by ascending name, and register its node. -/
def convertAll (limit : Option Nat) (root : Json) (rootAddress : String)
    (topLevels : SortedMap String Reference) : Conversion σ Unit := do
  let extent := extentOf (← get).documents root rootAddress (topLevels.entries.map Prod.snd)
  topLevels.entries.forM fun e => convertTopLevel limit extent root rootAddress e.1 e.2

/-- Convert a fragment of a document as if its path led to it. -/
def convertOne (limit : Option Nat) (place : Place) (hints : Names) (depth : Nat) :
    Conversion σ NodeId := do
  let extent := extentOf (← get).documents place.document place.path.address [place.path]
  let extent := extent.join (.ofDocument place.path.address place.fragment)
  convertAt limit extent place hints depth

end Conversion

/-- The graph of a single document: its root under a name, and, if wanted, its definitions. -/
def schemaGraph (document : Json) (address : String) (limit : Option Nat)
    (includeDefinitions : Bool) (rootName : String) : Except Failure TypeGraph := do
  let store ← MemoryStore.empty.insert address document
  let entryPoints := (∅ : SortedMap String Reference).insert rootName (.root address)
  let topLevels := topLevelRefs document address entryPoints includeDefinitions
  match (Conversion.convertAll limit document address topLevels).run (Progress.start store) with
  | .ok _ progress => .ok progress.graph
  | .error failure _ => .error failure

end ShapeGraph
