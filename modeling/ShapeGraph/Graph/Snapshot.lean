import ShapeGraph.Graph.Basic
import ShapeGraph.Json.Basic

/-!
# Type graphs as JSON

## Main definitions

* `Names.toJson`, `Attributes.toJson` — attributes; what is empty is left out.
* `Shape.toMembers` — the members that describe a shape.
* `TypeGraph.snapshot` — the whole graph.
-/

set_option autoImplicit false

namespace ShapeGraph

/-- A natural number as JSON. -/
def Json.ofNat (n : Nat) : Json := .num (.int n)

/-- Texts as JSON. -/
def Json.ofTexts (texts : List String) : Json := .arr (texts.map .str)

/-- Names as JSON. -/
def Names.toJson (n : Names) : Json :=
  .obj [("names", .ofTexts n.candidates.toList), ("inferred", .bool n.isInferred)]

/-- Attributes as JSON, without those that are empty. -/
def Attributes.toJson (a : Attributes) : Json :=
  .obj ((if a.names.isEmpty then [] else [("names", a.names.toJson)])
    ++ (if a.descriptions.isEmpty then []
        else [("descriptions", .ofTexts a.descriptions.toList)]))

/-- A property as JSON. -/
def Property.toJson (p : Property) : Json :=
  .obj [("name", .str p.name), ("type", .ofNat p.target), ("optional", .bool p.optional)]

/-- Members as JSON, `null` before they are set. -/
def membersToJson : Option (SortedSet NodeId) → Json
  | some members => .arr (members.toList.map .ofNat)
  | none => .null

/-- The members of a JSON object that describe a shape. -/
def Shape.toMembers : Shape → List (String × Json)
  | .primitive p => [("kind", .str "primitive"), ("primitive", .str p.name)]
  | .enum cases => [("kind", .str "enum"), ("cases", .ofTexts cases)]
  | .array items => [("kind", .str "array"), ("items", .ofNat items)]
  | .map values => [("kind", .str "map"), ("values", .ofNat values)]
  | .record properties =>
    [("kind", .str "class"), ("properties", .arr (properties.map Property.toJson))]
  | .combination .union members => [("kind", .str "union"), ("members", membersToJson members)]
  | .combination .intersection members =>
    [("kind", .str "intersection"), ("members", membersToJson members)]

/-- A node as JSON. -/
def Node.toJson (t : NodeId) (n : Node) : Json :=
  .obj (("id", .ofNat t) :: n.shape.toMembers
    ++ (if n.attributes.isEmpty then [] else [("attributes", n.attributes.toJson)]))

/-- The whole graph as JSON. -/
def TypeGraph.snapshot (g : TypeGraph) : Json :=
  .obj [("top_levels", .obj (g.topLevels.entries.map fun e => (e.1, .ofNat e.2))),
    ("nodes", .arr (g.nodes.mapIdx Node.toJson))]

end ShapeGraph
