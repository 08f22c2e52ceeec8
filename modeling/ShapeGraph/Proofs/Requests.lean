import ShapeGraph.Proofs.Reachability

/-!
# Requests to a graph

Whoever builds a graph asks it for nodes of some shape, for new unions and intersections, and for
changes to nodes that there are.  Such requests follow one another, and one that fails does not end
the sequence.

## Main definitions

* `Request` — what a graph may be asked for.
* `Request.wanted?` — the shape that a request wants a node of.
* `TypeGraph.perform` — what comes of a request.
* `TypeGraph.performAll` — the graph after a sequence of requests.

## Main results

* `TypeGraph.perform_preserves` — what holds of a graph after each kind of change holds after each
  request.
* `TypeGraph.performAll_preserves` — and then after each sequence of requests.

## Design

A request may mention any number as a node.  Only setting members asks for what the node is, and
fails if it is no union or intersection; even then the links from it have been replaced.
-/

set_option autoImplicit false

namespace ShapeGraph

/-! ## Requests -/

/-- What a graph may be asked for. -/
inductive Request where
  /-- The node of a primitive type. -/
  | primitive (kind : Primitive)
  /-- The node of an enum. -/
  | enum (cases : List String)
  /-- The node of an array. -/
  | array (items : NodeId)
  /-- The node of a map. -/
  | map (values : NodeId)
  /-- The node of a class. -/
  | record (properties : List Property)
  /-- A new union or intersection. -/
  | declare (operation : Operation)
  /-- Members for a node, in place of those that it has. -/
  | setMembers (t : NodeId) (members : SortedSet NodeId)
  /-- Further attributes for a node. -/
  | addAttributes (t : NodeId) (attributes : Attributes)
  /-- A name for a node. -/
  | addTopLevel (name : String) (t : NodeId)

/-- The shape that a request wants a node of, if it may be a node that there already is. -/
def Request.wanted? : Request → Option Shape
  | .primitive kind => some (.primitive kind)
  | .enum cases => some (.enum cases)
  | .array items => some (.array items)
  | .map values => some (.map values)
  | .record properties => some (.record properties)
  | .declare _ | .setMembers _ _ | .addAttributes _ _ | .addTopLevel _ _ => none

/-- Unions and intersections are not shared. -/
theorem Request.isCombination_of_wanted {r : Request} {shape : Shape} (h : r.wanted? = some shape) :
    shape.isCombination = false := by
  cases r <;> cases h <;> rfl

namespace TypeGraph

/-- What comes of a request: the node that it is answered with, if any, or a failure, and the graph
afterwards. -/
def perform (g : TypeGraph) (r : Request) : Except Failure (Option NodeId) × TypeGraph :=
  match r with
  | .primitive kind => found (g.primitive kind)
  | .enum cases => found (g.enum cases)
  | .array items => found (g.array items)
  | .map values => found (g.map values)
  | .record properties => found (g.record properties)
  | .declare operation => found (g.declare operation)
  | .setMembers t members => ((g.setMembers t members).1.map fun _ => none, (g.setMembers t members).2)
  | .addAttributes t attributes => (.ok none, g.addAttributes t attributes)
  | .addTopLevel name t => (.ok none, g.addTopLevel name t)
where
  /-- The answer with a node. -/
  found (result : NodeId × TypeGraph) : Except Failure (Option NodeId) × TypeGraph :=
    (.ok (some result.1), result.2)

/-- The graph after a sequence of requests. -/
def performAll (g : TypeGraph) (requests : List Request) : TypeGraph :=
  requests.foldl (fun g r => (g.perform r).2) g

variable {g : TypeGraph}

/-- A request that wants a node of some shape is answered with the node of this shape. -/
theorem perform_of_wanted {r : Request} {shape : Shape} (h : r.wanted? = some shape) :
    g.perform r = (.ok (some (g.intern shape).1), (g.intern shape).2) := by
  cases r <;> cases h <;> rfl

/-- Only requests for a node are answered with one. -/
theorem wanted_or_declare_of_answer {r : Request} {t : NodeId}
    (h : (g.perform r).1 = .ok (some t)) :
    (∃ shape, r.wanted? = some shape) ∨ ∃ operation, r = .declare operation := by
  cases r with
  | primitive | enum | array | map | record => exact Or.inl ⟨_, rfl⟩
  | declare operation => exact Or.inr ⟨operation, rfl⟩
  | setMembers u members =>
    change Except.map (fun _ => none) (g.setMembers u members).1 = .ok (some t) at h
    cases hresult : (g.setMembers u members).1 <;> rw [hresult] at h <;> cases h
  | addAttributes | addTopLevel => cases h

/-! ## What requests keep -/

/-- What holds of a graph after each kind of change holds after each request. -/
theorem perform_preserves {inv : TypeGraph → Prop} (r : Request)
    (interned : ∀ shape, shape.isCombination = false → inv (g.intern shape).2)
    (declared : ∀ operation, inv (g.declare operation).2)
    (filled : ∀ t members, r = .setMembers t members → inv (g.replaceMembers t members))
    (attributed : ∀ t attributes, r = .addAttributes t attributes → inv (g.addAttributes t attributes))
    (named : ∀ name t, inv (g.addTopLevel name t)) : inv (g.perform r).2 := by
  cases r with
  | primitive | enum | array | map | record => exact interned _ rfl
  | declare operation => exact declared operation
  | setMembers t members =>
    change inv (g.setMembers t members).2
    rw [setMembers_snd]
    exact filled t members rfl
  | addAttributes t attributes => exact attributed t attributes rfl
  | addTopLevel name t => exact named name t

/-- What every request keeps, every sequence of requests keeps. -/
theorem performAll_preserves {inv : TypeGraph → Prop}
    (step : ∀ g r, inv g → inv (g.perform r).2) (requests : List Request) (hg : inv g) :
    inv (g.performAll requests) := by
  induction requests generalizing g with
  | nil => exact hg
  | cons r rest ih => exact ih (step g r hg)

end TypeGraph

end ShapeGraph
