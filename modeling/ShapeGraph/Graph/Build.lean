import ShapeGraph.Failure
import ShapeGraph.Graph.Basic

/-!
# Building type graphs

## Main definitions

* `TypeGraph.intern` — the node of a shape, made if there is none yet.
* `TypeGraph.declare` — a new union or intersection without members.
* `TypeGraph.setMembers` — give a union or intersection its members.
* `TypeGraph.addAttributes`, `TypeGraph.addTopLevel`.

## Implementation notes

There is one node for each primitive type, enum, array, map and class: asking twice for the same
shape gives the same node.  Unions and intersections are new each time, because what they are is
only known when their members are set.
-/

set_option autoImplicit false

namespace ShapeGraph

/-! ## Links -/

/-- Remove the element at a position by moving the last element there. -/
def swapRemove {α : Type} (l : List α) (i : Nat) : List α :=
  match l.getLast? with
  | some last => (l.set i last).dropLast
  | none => []

namespace Link

/-- The links from `source` to the given parts, stamped from `made` on. -/
def toParts (source : NodeId) (made : Nat) (parts : List (Role × NodeId)) : List Link :=
  parts.mapIdx fun i part => ⟨source, part.2, part.1, made + i⟩

/-- Remove the link with a stamp. -/
def remove (links : List Link) (stamp : Nat) : List Link :=
  match links.findIdx? (·.stamp == stamp) with
  | some i => swapRemove links i
  | none => links

/-- Remove the links from a node, the latest first. -/
def removeFrom (links : List Link) (source : NodeId) : List Link :=
  let stamps := (links.filter (·.source == source)).map Link.stamp
  (stamps.mergeSort fun a b => b ≤ a).foldl remove links

end Link

namespace TypeGraph

/-! ## Allocation -/

/-- The graph with links from a node to the given parts.  These are meant to be handles that the graph has
given out: no link can be made to a node of another one. -/
def addLinks (g : TypeGraph) (source : NodeId) (parts : List (Role × NodeId)) : TypeGraph :=
  { g with
    links := g.links ++ Link.toParts source g.linksMade parts
    linksMade := g.linksMade + parts.length }

/-- A new node of a shape. -/
def allocate (g : TypeGraph) (shape : Shape) : NodeId × TypeGraph :=
  let t := g.nodes.length
  (t, addLinks { g with nodes := g.nodes ++ [⟨shape, .empty⟩] } t shape.parts)

/-- The node of a shape of which there is only one. -/
def intern (g : TypeGraph) (shape : Shape) : NodeId × TypeGraph :=
  match g.interned.lookup shape with
  | some t => (t, g)
  | none =>
    let (t, g) := g.allocate shape
    (t, { g with interned := (shape, t) :: g.interned })

/-- The node of a primitive type. -/
def primitive (g : TypeGraph) (kind : Primitive) : NodeId × TypeGraph := g.intern (.primitive kind)

/-- The node of an enum with the given cases. -/
def enum (g : TypeGraph) (cases : List String) : NodeId × TypeGraph := g.intern (.enum cases)

/-- The node of an array. -/
def array (g : TypeGraph) (items : NodeId) : NodeId × TypeGraph := g.intern (.array items)

/-- The node of a map. -/
def map (g : TypeGraph) (values : NodeId) : NodeId × TypeGraph := g.intern (.map values)

/-- The node of a class. -/
def record (g : TypeGraph) (properties : List Property) : NodeId × TypeGraph :=
  g.intern (.record properties)

/-- A new union or intersection, without members yet. -/
def declare (g : TypeGraph) (operation : Operation) : NodeId × TypeGraph :=
  g.allocate (.combination operation none)

/-! ## Changes -/

/-- The graph with a node changed. -/
def modifyNode (g : TypeGraph) (t : NodeId) (f : Node → Node) : TypeGraph :=
  { g with nodes := g.nodes.modify t f }

/-- Replace the links from a node by links to members, and its members if it is a union or
intersection. -/
def replaceMembers (g : TypeGraph) (t : NodeId) (members : SortedSet NodeId) : TypeGraph :=
  let g := { g with links := Link.removeFrom g.links t }
  let g := g.addLinks t (members.toList.map fun m => (.member, m))
  g.modifyNode t fun n => { n with shape := n.shape.withMembers members }

/-- Set the members of a union or intersection.  Asked of any other node it fails, after the node's
links have been replaced. -/
def setMembers (g : TypeGraph) (t : NodeId) (members : SortedSet NodeId) :
    Except Failure Unit × TypeGraph :=
  let after := g.replaceMembers t members
  if (g.shape? t).any Shape.isCombination then (.ok (), after)
  else (.error (.notASet t (g.label t)), after)

/-- Attach further attributes to a node. -/
def addAttributes (g : TypeGraph) (t : NodeId) (attributes : Attributes) : TypeGraph :=
  if attributes.isEmpty then g
  else g.modifyNode t fun n => { n with attributes := n.attributes.merge attributes }

/-- Make a node known by a name. -/
def addTopLevel (g : TypeGraph) (name : String) (t : NodeId) : TypeGraph :=
  { g with topLevels := g.topLevels.insert name t }

end TypeGraph

end ShapeGraph
