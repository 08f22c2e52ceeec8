import ShapeGraph.Reference.Escape

/-!
# References

A reference leads to a place in a schema document: the document's address and the steps to take in
it.  It is what a `$ref` means, and also the key under which a converted type is remembered, so two
references are the same only if they have the same address and the same steps.

## Main definitions

* `Combinator` — the keywords that combine sub-schemas.
* `PathElement` — one step of a reference.
* `Reference` — an address with steps.
* `Reference.render` — the text of a reference, without its address.
* `Reference.isRelative`, `Reference.definitionName?`.

## Implementation notes

A reference that starts with `PathElement.root` leads from the root of the document; any other one
leads from the place where it is found.  The elements `typeBranch` and `object` lead nowhere in the
text of a schema: they only tell apart the several types that one schema may stand for.
-/

set_option autoImplicit false

namespace ShapeGraph

/-! ## Elements -/

/-- The keywords whose value is a list of sub-schemas. -/
inductive Combinator where
  | allOf
  | oneOf
  | anyOf
deriving DecidableEq, Inhabited

/-- The keyword itself. -/
def Combinator.keyword : Combinator → String
  | .allOf => "allOf"
  | .oneOf => "oneOf"
  | .anyOf => "anyOf"

/-- One step of a reference. -/
inductive PathElement where
  /-- To the root of the document. -/
  | root
  /-- To an entry of `definitions`. -/
  | definition (name : String)
  /-- To a member of an object, or to an item of an array by its index in decimal. -/
  | key (name : String)
  /-- To one of the types that a schema lists. -/
  | typeBranch (index : Nat)
  /-- To the object type that a schema describes. -/
  | object
  /-- To a sub-schema of a combinator. -/
  | branch (combinator : Combinator) (index : Nat)
deriving DecidableEq, Inhabited

/-- Whether the element leads somewhere in the text of a schema. -/
def PathElement.isAddressable : PathElement → Bool
  | .typeBranch _ | .object => false
  | _ => true

/-- The text of an element. -/
def PathElement.render : PathElement → String
  | .root => "#"
  | .definition name => "definitions/" ++ Pointer.escape name
  | .key name => Pointer.escape name
  | .typeBranch i => "type/" ++ toString i
  | .object => "object"
  | .branch c i => c.keyword ++ "/" ++ toString i

/-! ## References -/

/-- A place in a schema document. -/
structure Reference where
  /-- The address of the document. -/
  address : String
  /-- The steps to take in it. -/
  elements : List PathElement
deriving DecidableEq, Inhabited

namespace Reference

/-- The root of a document. -/
def root (address : String) : Reference := ⟨address, [.root]⟩

/-- One step further. -/
def push (r : Reference) (e : PathElement) : Reference := ⟨r.address, r.elements ++ [e]⟩

/-- Further by several keys. -/
def pushKeys (r : Reference) (keys : List String) : Reference :=
  ⟨r.address, r.elements ++ keys.map .key⟩

/-- Whether the reference leads from the place where it is found. -/
def isRelative (r : Reference) : Bool := r.elements.head? != some .root

/-- The name of the definition that the last step leads to. -/
def definitionName? (r : Reference) : Option String :=
  match r.elements.getLast? with
  | some (.definition name) => some name
  | _ => none

/-- The text of a reference: its elements with slashes between them. -/
def render (r : Reference) : String := "/".intercalate (r.elements.map PathElement.render)

end Reference

end ShapeGraph
