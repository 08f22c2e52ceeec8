import ShapeGraph.Failure
import ShapeGraph.Reference.Parser

/-!
# Places in documents

A schema is converted where it stands: in a document, at a path.  References lead from one place to
another.

## Main definitions

* `Place` — a fragment of a document together with the path that leads to it.
* `Place.step` — the part of a value under a key or at an index.
* `Place.walk` — one step of a reference.
* `Place.lookup` — the place that a reference leads to.
* `Reference.ofValue` — the reference that the value of `$ref` means.

## Implementation notes

A walk starts over at the root of the document whenever it meets `PathElement.root`, so a reference
that begins with it leads to the same place from everywhere.  The path of the place reached lists
the steps since then.
-/

set_option autoImplicit false

namespace ShapeGraph

/-- A fragment of a document and the path that leads to it. -/
structure Place where
  /-- The document. -/
  document : Json
  /-- The part of it that stands at the path. -/
  fragment : Json
  /-- The path. -/
  path : Reference
deriving Inhabited

/-- The reference that the value of `$ref` means in the document at `base`.  The place at which it
stands is named when it is no string. -/
def Reference.ofValue (base : String) (value : Json) (place : Reference) :
    Except Failure Reference :=
  match value.text? with
  | some text => .ok (.parse base text)
  | none => .error (.refNotString place)

namespace Place

/-- The root of a document. -/
def ofDocument (address : String) (document : Json) : Place := ⟨document, document, .root address⟩

/-- The index of an array's item that a key names: decimal digits, perhaps after a plus sign, of a
number that fits 64 bits. -/
def index? (key : String) : Option Nat :=
  let digits := match key.toList with
    | '+' :: rest => rest
    | cs => cs
  if digits ≠ [] ∧ digits.all Char.isDigit then
    let n := Literal.ofDigits (digits.map fun c => c.toNat - 48)
    if n ≤ Literal.maxUnsigned then some n else none
  else none

/-- The part of `value`, which stands at `path`, under a key or at the index that the key names.  The
whole `target` of the walk is named in the failure. -/
def step (target path : Reference) (value : Json) (key : String) : Except Failure Json :=
  match value with
  | .arr items =>
    match index? key with
    | none => .error (.invalidIndex key path)
    | some i =>
      match items[i]? with
      | some item => .ok item
      | none => .error (.unresolved target (.indexOutOfBounds i path))
  | .obj members =>
    match members.lookup key with
    | some member => .ok member
    | none => .error (.unresolved target (.keyNotFound key path))
  | other => .error (.unresolved target (.noContainer other.kind path))

/-- The definition of a name, if it is a schema written as an object. -/
def definition? (name : String) (fragment : Json) : Option Json :=
  ((fragment.get? "definitions").bind (Json.get? name)).filter Json.isObject

/-- The place one step further on the way to `target`. -/
def walk (target : Reference) (place : Place) (element : PathElement) : Except Failure Place :=
  match element with
  | .root => .ok ⟨place.document, place.document, .root target.address⟩
  | .definition name =>
    match definition? name place.fragment with
    | some schema => .ok ⟨place.document, schema, place.path.push element⟩
    | none => .error (.missingDefinition name place.path)
  | .key key => do
    let part ← step target place.path place.fragment key
    return ⟨place.document, part, place.path.push element⟩
  | .branch combinator i => do
    let cases ← step target place.path place.fragment combinator.keyword
    let case ← step target place.path cases (toString i)
    return ⟨place.document, case, place.path.push element⟩
  | .typeBranch _ | .object => .error (.unaddressable target element)

/-- The place that a reference leads to. -/
def lookup (place : Place) (target : Reference) : Except Failure Place :=
  target.elements.foldlM (walk target) place

end Place

end ShapeGraph
