import ShapeGraph.Documents.Source
import ShapeGraph.Order.SortedMap

/-!
# Documents in memory

## Main definitions

* `MemoryStore` — documents by address.
* `MemoryStore.insert` — put a document under an address, in place of one that is there.
-/

set_option autoImplicit false

namespace ShapeGraph

/-- Documents held in memory. -/
structure MemoryStore where
  /-- The documents by address. -/
  documents : SortedMap String Json
deriving Inhabited

namespace MemoryStore

/-- The store without documents. -/
def empty : MemoryStore := ⟨∅⟩

/-- The store with one more document. -/
def insert (store : MemoryStore) (address : String) (document : Json) :
    Except Failure MemoryStore := do
  checkDocument address document
  return ⟨store.documents.insert address document⟩

/-- The document at an address. -/
def fetch (store : MemoryStore) (address : String) : Except Failure Json :=
  match store.documents.find? address with
  | some document => .ok document
  | none => .error (.documentNotFound address)

/-- The extent of all documents in the store. -/
def extent (store : MemoryStore) : Extent :=
  (store.documents.entries.map fun e => Extent.ofDocument e.1 e.2).foldl .join .zero

instance : DocumentSource MemoryStore where
  fetch store address := (store.fetch address, store)
  extent := extent

end MemoryStore

end ShapeGraph
