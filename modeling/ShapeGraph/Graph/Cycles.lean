import ShapeGraph.Graph.Basic

/-!
# Recursive types

A type is recursive if the links lead from it back to itself.  Types that lead to one another form a
group.

## Main definitions

* `TypeGraph.successors` — the nodes that a node has links to, as a set of bits.
* `TypeGraph.reach` — the nodes to which some non-empty path of links leads, for each node.
* `TypeGraph.cycles` — the groups of recursive types.

## Implementation notes

Sets of nodes are natural numbers, one bit for each node.  Reachability admits one further node as a
stopover at a time: after a node has been admitted, every row that contains it contains its whole
row.
-/

set_option autoImplicit false

namespace ShapeGraph

namespace TypeGraph

/-- The nodes that `t` has links to, as a set of bits. -/
def successors (g : TypeGraph) (t : NodeId) : Nat :=
  (g.links.filter (·.source == t)).foldl (fun row l => row ||| 1 <<< l.target) 0

/-- Admit a node as a stopover: whoever reaches it reaches what it reaches. -/
def addStop (rows : Array Nat) (stop : NodeId) : Array Nat :=
  let through := rows[stop]?.getD 0
  rows.map fun row => if row.testBit stop then row ||| through else row

/-- For each node the nodes to which some non-empty path of links leads. -/
def reach (g : TypeGraph) : Array Nat :=
  let ids := List.range g.nodes.length
  ids.foldl addStop (ids.map g.successors).toArray

/-- Whether some non-empty path of links leads from one node to another. -/
def reaches (rows : Array Nat) (s t : NodeId) : Bool := (rows[s]?.getD 0).testBit t

/-- The groups of nodes that lead to one another, or a single one to itself.  Groups and the nodes
of a group ascend. -/
def cycles (g : TypeGraph) : List (List NodeId) :=
  let rows := g.reach
  let ids := List.range g.nodes.length
  let together (s t : NodeId) : Bool := reaches rows s t && reaches rows t s
  ids.filterMap fun s =>
    if reaches rows s s && !(List.range s).any (together s) then
      some (ids.filter (together s))
    else none

end TypeGraph

end ShapeGraph
