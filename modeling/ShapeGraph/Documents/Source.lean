import ShapeGraph.Failure

/-!
# Sources of documents

A conversion asks for a document only when a reference leads out of the one at hand.  Where documents
come from is up to the source.

## Main definitions

* `Extent` — how large and how deeply nested values are, and how many addresses they have.
* `DocumentSource` — where documents come from.
* `checkDocument` — a document has to be an object or a boolean.

## Implementation notes

A source is passed along, since fetching may change it: it may keep what it has read.  Its extent
bounds how long a conversion without a limit can go on.
-/

set_option autoImplicit false

namespace ShapeGraph

/-! ## Extents -/

mutual

/-- The number of values and characters in a value. -/
def Json.size : Json → Nat
  | .null | .bool _ | .num _ => 1
  | .str s => s.length + 1
  | .arr items => itemsSize items + 1
  | .obj members => membersSize members + 1

/-- The number of values and characters in some values. -/
def Json.itemsSize : List Json → Nat
  | [] => 0
  | v :: rest => v.size + itemsSize rest

/-- The number of values and characters in some members. -/
def Json.membersSize : List (String × Json) → Nat
  | [] => 0
  | (k, v) :: rest => k.length + 1 + v.size + membersSize rest

end

mutual

/-- How deep arrays and objects are nested in a value. -/
def Json.depth : Json → Nat
  | .null | .bool _ | .num _ | .str _ => 0
  | .arr items => itemsDepth items + 1
  | .obj members => membersDepth members + 1

/-- How deep arrays and objects are nested in some values. -/
def Json.itemsDepth : List Json → Nat
  | [] => 0
  | v :: rest => max v.depth (itemsDepth rest)

/-- How deep arrays and objects are nested in some members. -/
def Json.membersDepth : List (String × Json) → Nat
  | [] => 0
  | (_, v) :: rest => max v.depth (membersDepth rest)

end

/-- How large some values are together, how deeply nested at most, and under how many addresses they
can be found. -/
structure Extent where
  /-- The number of values and characters. -/
  size : Nat
  /-- How deep arrays and objects are nested. -/
  depth : Nat
  /-- The number of addresses. -/
  addresses : Nat
deriving DecidableEq, Inhabited

namespace Extent

/-- The extent of nothing. -/
def zero : Extent := ⟨0, 0, 0⟩

/-- The extent of two parts together. -/
def join (a b : Extent) : Extent :=
  ⟨a.size + b.size, max a.depth b.depth, a.addresses + b.addresses⟩

/-- The extent of a document with its address. -/
def ofDocument (address : String) (document : Json) : Extent :=
  ⟨address.length + 1 + document.size, document.depth, 1⟩

/-- The extent of a reference. -/
def ofReference (r : Reference) : Extent :=
  ⟨r.address.length + 1 + r.elements.length, r.elements.length, 0⟩

end Extent

/-! ## Sources -/

/-- A source of documents by address. -/
class DocumentSource (σ : Type) where
  /-- The document at an address, and the source after it has been asked. -/
  fetch : σ → String → Except Failure Json × σ
  /-- A bound for all documents that can be fetched, together with their addresses. -/
  extent : σ → Extent

/-- A document has to be an object or a boolean. -/
def checkDocument (address : String) (document : Json) : Except Failure Unit :=
  match document with
  | .obj _ | .bool _ => .ok ()
  | other => .error (.invalidDocument address (.wrongKind other.kind))

end ShapeGraph
