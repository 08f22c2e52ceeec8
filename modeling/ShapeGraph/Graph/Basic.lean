import ShapeGraph.Attributes.Basic
import ShapeGraph.Order.SortedMap

/-!
# Type graphs

The types that a schema describes are the nodes of a graph.  A node is known by its index; what it
is made of refers to other nodes by their indices, so types may refer to themselves.

## Main definitions

* `Shape` — the structure of a type.
* `Node` — a shape with attributes.
* `Link` — the relation of a node to a part of it.
* `TypeGraph` — nodes, links, and the names of some nodes.

## Implementation notes

Links repeat what the shapes say, one for each part, so that cycles and drawings need not look into
shapes.  A link is numbered by its position; removing one moves the last link into its place.  The
order in which links were made is kept beside that as a stamp.

Unions and intersections are made without members and get them later; until then their members are
`none`.
-/

set_option autoImplicit false

namespace ShapeGraph

/-- The index of a node. -/
abbrev NodeId := Nat

/-! ## Shapes -/

/-- Types without parts. -/
inductive Primitive where
  | any
  | null
  | bool
  | integer
  | double
  | string
  | date
  | time
  | dateTime
deriving DecidableEq, Inhabited

/-- The name of a primitive type. -/
def Primitive.name : Primitive → String
  | .any => "any"
  | .null => "null"
  | .bool => "bool"
  | .integer => "integer"
  | .double => "double"
  | .string => "string"
  | .date => "date"
  | .time => "time"
  | .dateTime => "date-time"

/-- A property of a class. -/
structure Property where
  /-- Its name. -/
  name : String
  /-- The node of its type. -/
  target : NodeId
  /-- Whether it may be absent. -/
  optional : Bool
deriving DecidableEq, Inhabited

/-- The two ways to combine types. -/
inductive Operation where
  | union
  | intersection
deriving DecidableEq, Inhabited

/-- The structure of a type. -/
inductive Shape where
  /-- A type without parts. -/
  | primitive (kind : Primitive)
  /-- One of some texts. -/
  | enum (cases : List String)
  /-- A list of items of one type. -/
  | array (items : NodeId)
  /-- Values of one type under arbitrary keys. -/
  | map (values : NodeId)
  /-- A class with named properties. -/
  | record (properties : List Property)
  /-- A combination of types; without members until they are set. -/
  | combination (operation : Operation) (members : Option (SortedSet NodeId))
deriving DecidableEq, Inhabited

namespace Shape

/-- The word for the kind of a type; a primitive type goes by its name. -/
def label : Shape → String
  | .primitive p => p.name
  | .enum _ => "enum"
  | .array _ => "array"
  | .map _ => "map"
  | .record _ => "class"
  | .combination .union _ => "union"
  | .combination .intersection _ => "intersection"

/-- The members of a combination, once they are set. -/
def members? : Shape → Option (SortedSet NodeId)
  | .combination _ members => members
  | _ => none

/-- Whether the type is a union or an intersection. -/
def isCombination : Shape → Bool
  | .combination _ _ => true
  | _ => false

/-- The same combination with other members; other shapes stay as they are. -/
def withMembers (members : SortedSet NodeId) : Shape → Shape
  | .combination operation _ => .combination operation (some members)
  | shape => shape

end Shape

/-! ## Nodes and links -/

/-- A type with what is attached to it. -/
structure Node where
  /-- The structure of the type. -/
  shape : Shape
  /-- Its names and descriptions. -/
  attributes : Attributes
deriving DecidableEq, Inhabited

/-- What a part is to the type that it is a part of. -/
inductive Role where
  /-- The items of an array. -/
  | items
  /-- The values of a map. -/
  | values
  /-- A property of a class. -/
  | property (name : String)
  /-- A member of a union or intersection. -/
  | member
deriving DecidableEq, Inhabited

/-- The relation of a node to a part of it. -/
structure Link where
  /-- The node. -/
  source : NodeId
  /-- The part. -/
  target : NodeId
  /-- What the part is to the node. -/
  role : Role
  /-- The number of links made before this one. -/
  stamp : Nat
deriving DecidableEq, Inhabited

/-- The parts of a shape, in order, each with its role. -/
def Shape.parts : Shape → List (Role × NodeId)
  | .primitive _ | .enum _ => []
  | .array items => [(.items, items)]
  | .map values => [(.values, values)]
  | .record properties => properties.map fun p => (.property p.name, p.target)
  | .combination _ none => []
  | .combination _ (some members) => members.toList.map fun m => (.member, m)

/-! ## Graphs -/

/-- Types and their relations. -/
structure TypeGraph where
  /-- The nodes, by index. -/
  nodes : List Node
  /-- The links, by number. -/
  links : List Link
  /-- How many links have been made, those removed since included. -/
  linksMade : Nat
  /-- The nodes of those shapes of which there is only one node each. -/
  interned : List (Shape × NodeId)
  /-- The nodes that are known by a name. -/
  topLevels : SortedMap String NodeId
deriving DecidableEq, Inhabited

namespace TypeGraph

/-- The graph without nodes. -/
def empty : TypeGraph := ⟨[], [], 0, [], ∅⟩

/-- The shape of a node. -/
def shape? (g : TypeGraph) (t : NodeId) : Option Shape := (g.nodes[t]?).map Node.shape

/-- The word for the kind of a node. -/
def label (g : TypeGraph) (t : NodeId) : String := ((g.shape? t).map Shape.label).getD ""

/-- The attributes of a node. -/
def attributes (g : TypeGraph) (t : NodeId) : Attributes :=
  ((g.nodes[t]?).map Node.attributes).getD .empty

/-- The members of a union or intersection, once they are set. -/
def members? (g : TypeGraph) (t : NodeId) : Option (SortedSet NodeId) :=
  (g.shape? t).bind Shape.members?

/-- The name of a node in texts. -/
def nodeName (t : NodeId) : String := "t" ++ toString t

end TypeGraph

end ShapeGraph
