import ShapeGraph.Conversion.Parts
import ShapeGraph.Reference.Hint

/-!
# Converting schemas

A schema becomes an intersection of what its keywords say: the schemas under `allOf`, a union for
each of `oneOf` and `anyOf`, and what its `type` names.  A `$ref` becomes the node of its target;
an `enum` becomes a node of its own kind, and a boolean the node of any type.

## Main definitions

* `Conversion.follow` — the node of a reference's target.
* `Conversion.convertSchema` — the node of a schema that is neither reference nor enum.
* `Conversion.convertPlace` — the node of the schema at a place, given how the schemas inside it
  are converted.
* `Conversion.toType` — the node of the schema at a place, with schemas nested at most so deep.

## Implementation notes

An intersection is bound to its path before the schemas inside it are converted, so that a reference
that leads back to it finds its node.  A run of references that leads back into itself without
meeting any other schema has no node to find; the chain of references being followed shows it.  The
chain starts anew at each schema that is no reference.
-/

set_option autoImplicit false

namespace ShapeGraph

namespace Conversion

variable {σ : Type}

/-! ## References -/

/-- The place that a reference leads to; other documents are fetched. -/
def locate [DocumentSource σ] (place : Place) (target : Reference) : Conversion σ Place := do
  if target.address = place.path.address then ofResult (place.lookup target)
  else
    let document ← fetch target.address
    ofResult ((Place.ofDocument target.address document).lookup target)

/-- The names for the target of a reference: as long as those passed along are only inferred, the
one that the reference itself suggests takes their place. -/
def targetHints (target : Reference) (hints : Names) : Except Failure Names :=
  if hints.isInferred then do
    match ← target.hint with
    | some name => return .inferred name
    | none => return hints
  else .ok hints

/-- The part of a chain of references that leads from `target` back to itself over `path`, if
`target` is on the chain or is `path` itself. -/
def cycle? (chain : List Reference) (path target : Reference) : Option (List Reference) :=
  if target = path then some [path, target]
  else (chain.findIdx? (· = target)).map fun i => chain.drop i ++ [path, target]

/-- The node of the place that the reference at `path` leads to. -/
def followTo (recur : Converter σ) (path : Reference) (target : Place) (hints : Names) :
    Conversion σ NodeId := do
  let chain := (← get).chain
  match cycle? chain path target.path with
  | some hops => throw (.unresolved target.path (.cycle hops))
  | none => whileFollowing path (recur target hints)

/-- The node that the reference `value` at a place stands for. -/
def follow [DocumentSource σ] (recur : Converter σ) (place : Place) (value : Json)
    (hints : Names) : Conversion σ NodeId := do
  let target ← ofResult (Reference.ofValue place.path.address value place.path)
  let hints ← ofResult (targetHints target hints)
  let found ← locate place target
  followTo recur place.path found hints

/-! ## Schemas -/

/-- The node of a schema that is neither reference nor enum. -/
def convertSchema (recur : Converter σ) (place : Place) (attributes : Attributes) :
    Conversion σ NodeId := do
  let intersection ← declare .intersection
  bind place.path intersection
  let all ← convertAllOf recur place attributes.names
  let one ← convertChoice recur place .oneOf attributes.names
  let any ← convertChoice recur place .anyOf attributes.names
  let types ← convertTypes recur place attributes
  setMembers intersection (← orAny (((all.union one).union any).union types))
  addAttributes intersection attributes
  return intersection

/-- The node of the fragment at a place. -/
def convertFragment [DocumentSource σ] (recur : Converter σ) (place : Place) (hints : Names) :
    Conversion σ NodeId :=
  match place.fragment with
  | .bool _ => primitive .any
  | .obj _ =>
    match place.fragment.get? "$ref" with
    | some value => follow recur place value hints
    | none =>
      let attributes := Attributes.ofSchema place.fragment place.path hints
      match place.fragment.get? "enum" with
      | some cases => convertEnum cases place.path attributes
      | none => convertSchema recur place attributes
  | other => throw (.expectedShape .schema other.kind place.path)

/-- The node of the fragment at a place, to which its path is then bound. -/
def convertPlace [DocumentSource σ] (recur : Converter σ) (place : Place) (hints : Names) :
    Conversion σ NodeId := do
  let t ← if place.fragment.has "$ref" then convertFragment recur place hints
    else withChain [] (convertFragment recur place hints)
  bind place.path t
  return t

/-! ## Recursion -/

/-- The node of the fragment at a place: the one its path is bound to, or else a new one, for which
schemas may be nested less than `budget` deep. -/
def toType [DocumentSource σ] (limit : Nat) : Nat → Converter σ
  | 0, place, _ => do
    match ← bound? place.path with
    | some t => return t
    | none => throw (.depthExceeded limit place.path)
  | budget + 1, place, hints => do
    match ← bound? place.path with
    | some t => return t
    | none => convertPlace (toType limit budget) place hints

end Conversion

end ShapeGraph
