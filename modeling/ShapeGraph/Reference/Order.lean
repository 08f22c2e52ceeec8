import ShapeGraph.Reference.Basic

/-!
# The order of references

References are ordered by address, then by their elements from left to right; a reference comes
before those that continue it.

## Main definitions

* `PathElement.rank` — the place of a kind of element among the others.
* `PathElement.compare`, `Reference.compare`.
-/

set_option autoImplicit false

namespace ShapeGraph

/-- The place of an element's kind among the others. -/
def PathElement.rank : PathElement → Nat
  | .root => 0
  | .definition _ => 1
  | .key _ => 2
  | .typeBranch _ => 3
  | .object => 4
  | .branch .allOf _ => 5
  | .branch .oneOf _ => 6
  | .branch .anyOf _ => 7

/-- The name or key that an element carries. -/
def PathElement.label : PathElement → String
  | .definition s | .key s => s
  | _ => ""

/-- The index that an element carries. -/
def PathElement.index : PathElement → Nat
  | .typeBranch i | .branch _ i => i
  | _ => 0

/-- Elements are ordered by kind, then by what they carry. -/
def PathElement.compare (a b : PathElement) : Ordering :=
  (Ord.compare a.rank b.rank).then
    ((Ord.compare a.label b.label).then (Ord.compare a.index b.index))

/-- Lists of elements are ordered by their first difference. -/
def Reference.compareElements : List PathElement → List PathElement → Ordering
  | [], [] => .eq
  | [], _ :: _ => .lt
  | _ :: _, [] => .gt
  | a :: as, b :: bs => (a.compare b).then (compareElements as bs)

/-- References are ordered by address, then by their elements. -/
def Reference.compare (a b : Reference) : Ordering :=
  (Ord.compare a.address b.address).then (Reference.compareElements a.elements b.elements)

end ShapeGraph
