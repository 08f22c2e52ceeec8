import ShapeGraph.Graph.Basic

/-!
# Looking at type graphs

## Main definitions

* `TypeGraph.resolved` — the type that a node stands for once combinations of a single member are
  looked through.
* `TypeGraph.property?` — a property of a class.
* `TypeGraph.kindCounts` — how many nodes there are of each kind.

## Implementation notes

Combinations of a single member may lead back to one another.  Then the first node that is met a
second time is the answer; it is met after at most as many steps as there are nodes.
-/

set_option autoImplicit false

namespace ShapeGraph

namespace TypeGraph

/-- The single member of a combination that has just one. -/
def onlyMember? (g : TypeGraph) (t : NodeId) : Option NodeId :=
  (g.members? t).bind SortedSet.only?

/-- Look through combinations of a single member, for at most so many steps, until one of them is
met again. -/
def resolveFrom (g : TypeGraph) : Nat → List NodeId → NodeId → NodeId
  | 0, _, t => t
  | steps + 1, visited, t =>
    if t ∈ visited then t
    else match g.onlyMember? t with
      | some next => g.resolveFrom steps (t :: visited) next
      | none => t

/-- The node that `t` stands for once combinations of a single member are looked through. -/
def resolved (g : TypeGraph) (t : NodeId) : NodeId := g.resolveFrom (g.nodes.length + 1) [] t

/-- The property of a name, if `t` stands for a class that has it. -/
def property? (g : TypeGraph) (t : NodeId) (name : String) : Option Property :=
  match g.shape? (g.resolved t) with
  | some (.record properties) => properties.find? (·.name == name)
  | _ => none

/-- The number of nodes of each kind. -/
def kindCounts (g : TypeGraph) : SortedMap String Nat :=
  g.nodes.foldl (fun counts n =>
    counts.insert n.shape.label ((counts.find? n.shape.label).getD 0 + 1)) ∅

end TypeGraph

end ShapeGraph
