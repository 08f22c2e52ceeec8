import ShapeGraph.Graph.Basic

/-!
# Drawings of type graphs

A type graph is drawn by giving it in the DOT language: a box for each node, a plain label for each
top-level name, and an arrow for each link.

## Main definitions

* `TypeGraph.toDot` — the drawing as a text.
-/

set_option autoImplicit false

namespace ShapeGraph

namespace TypeGraph

/-- The fill colour for a kind of node. -/
def fillColor (label : String) : String :=
  match label with
  | "class" => "#00BCD4"
  | "map" => "#4CAF50"
  | "array" => "#2196F3"
  | "enum" => "#FF5722"
  | "union" => "#FF9800"
  | "intersection" => "#9C27B0"
  | _ => "#9E9E9E"

/-- A text with apostrophes in place of quotes. -/
def softenQuotes (s : String) : String :=
  String.ofList (s.toList.map fun c => if c = '"' then '\'' else c)

/-- The text in the box of a node: its names above its kind. -/
def boxText (n : Node) : String :=
  let names := n.attributes.names.candidates.toList
  if names.isEmpty then n.shape.label
  else "|".intercalate names ++ "\\n" ++ n.shape.label

/-- A text between quotes. -/
def quoted (s : String) : String := "\"" ++ s ++ "\""

/-- The line that draws a node. -/
def dotNode (t : NodeId) (n : Node) : String :=
  "  " ++ quoted (nodeName t) ++ " [label=" ++ quoted (softenQuotes (boxText n)) ++ ", fillcolor="
    ++ quoted (fillColor n.shape.label) ++ "];\n"

/-- The lines that draw a top-level name. -/
def dotTopLevel (name : String) (t : NodeId) : String :=
  "  " ++ quoted ("top:" ++ name) ++ " [label=" ++ quoted name ++ ", shape=plaintext];\n"
    ++ "  " ++ quoted ("top:" ++ name) ++ " -> " ++ quoted (nodeName t) ++ ";\n"

/-- The label of an arrow. -/
def roleText : Role → String
  | .items => "items"
  | .values => "values"
  | .property name => name
  | .member => ""

/-- The line that draws a link. -/
def dotLink (l : Link) : String :=
  "  " ++ quoted (nodeName l.source) ++ " -> " ++ quoted (nodeName l.target) ++ " [label="
    ++ quoted (roleText l.role) ++ "];\n"

/-- What stands before the first node. -/
def dotHeader : String :=
  "digraph TypeGraph \x7b\n"
    ++ "  rankdir=LR;\n"
    ++ "  node [shape=box, style=\"filled,rounded\", fontname=\"Helvetica\", fontsize=10];\n"
    ++ "  edge [fontname=\"Helvetica\", fontsize=8, fontcolor=\"#808080\"];\n"
    ++ "\n"

/-- The drawing of a graph. -/
def toDot (g : TypeGraph) : String :=
  dotHeader
    ++ String.join (g.nodes.mapIdx dotNode)
    ++ "\n"
    ++ String.join (g.topLevels.entries.map fun e => dotTopLevel e.1 e.2)
    ++ String.join (g.links.map dotLink)
    ++ "\x7d\n"

end TypeGraph

end ShapeGraph
