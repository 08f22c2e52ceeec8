import ShapeGraph.Documents.Directory
import ShapeGraph.Graph.Cycles
import ShapeGraph.Graph.View

/-!
# Summaries

## Main definitions

* `summary` — counts of a graph, its top-level types and cycles, and the documents it is made from.

## Implementation notes

Columns are as wide as stated, or wider where a word does not fit.
-/

set_option autoImplicit false

namespace ShapeGraph

/-- A text filled up with blanks to some width. -/
def padded (width : Nat) (text : String) : String :=
  text ++ String.ofList (List.replicate (width - text.length) ' ')

namespace TypeGraph

/-- The line for the nodes of a kind. -/
def kindLine (kind : String) (count : Nat) : String :=
  "  " ++ padded 14 kind ++ " " ++ toString count ++ "\n"

/-- The line for a top-level name. -/
def topLevelLine (g : TypeGraph) (name : String) (t : NodeId) : String :=
  let resolved := g.resolved t
  "  " ++ padded 24 name ++ " " ++ nodeName resolved ++ " (" ++ g.label resolved ++ ")\n"

/-- The line for a group of recursive types. -/
def cycleLine (group : List NodeId) : String :=
  "  " ++ " -> ".intercalate (group.map nodeName) ++ "\n"

end TypeGraph

/-- Counts of a graph, its top-level types and cycles, and the documents it is made from. -/
def summary (g : TypeGraph) (store : DirectoryStore) : String :=
  let cycles := g.cycles
  "Type graph: " ++ toString g.nodes.length ++ " nodes, " ++ toString g.links.length ++ " edges\n"
    ++ String.join (g.kindCounts.entries.map fun e => TypeGraph.kindLine e.1 e.2)
    ++ "\nTop-level types (" ++ toString g.topLevels.size ++ "):\n"
    ++ String.join (g.topLevels.entries.map fun e => g.topLevelLine e.1 e.2)
    ++ "\nCycles: " ++ toString cycles.length ++ "\n"
    ++ String.join (cycles.map TypeGraph.cycleLine)
    ++ "\nDocuments: " ++ toString store.addresses.length ++ "\n"
    ++ "Bundle hash: " ++ store.bundleHash

end ShapeGraph
