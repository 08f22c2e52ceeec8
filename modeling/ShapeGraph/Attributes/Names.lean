import ShapeGraph.Order.SortedSet
import ShapeGraph.Text.Singular

/-!
# Names for types

Candidates for the name of a type come from the shape of the schema, which makes them inferred, or
from the schema's author, which makes them given.

## Main definitions

* `Confidence` — inferred or given.
* `Names` — candidate names of one confidence.
* `Names.merge` — the candidates of two sources: given names win over inferred ones, names of equal
  confidence accumulate.
* `Names.singular` — the candidates for one piece of a container.
-/

set_option autoImplicit false

namespace ShapeGraph

/-- How sure a name is. -/
inductive Confidence where
  /-- Derived from the shape of a schema. -/
  | inferred
  /-- Stated by the author of a schema. -/
  | given
deriving DecidableEq, Inhabited

/-- Candidate names of one confidence. -/
structure Names where
  /-- The candidates. -/
  candidates : SortedSet String
  /-- How sure they are. -/
  confidence : Confidence
deriving DecidableEq

namespace Names

/-- No candidate. -/
def empty : Names := ⟨∅, .inferred⟩

instance : Inhabited Names := ⟨empty⟩

/-- One inferred name. -/
def inferred (name : String) : Names := ⟨.singleton name, .inferred⟩

/-- One given name. -/
def given (name : String) : Names := ⟨.singleton name, .given⟩

/-- Whether there is no candidate. -/
def isEmpty (n : Names) : Bool := n.candidates.isEmpty

/-- Whether the candidates are only inferred. -/
def isInferred (n : Names) : Bool := n.confidence == .inferred

/-- The singulars of all candidates; they are inferred. -/
def singular (n : Names) : Names := ⟨n.candidates.map ShapeGraph.singular, .inferred⟩

/-- The candidates of two sources. -/
def merge (n other : Names) : Names :=
  if other.isEmpty then n
  else match n.confidence, other.confidence with
    | .inferred, .given => other
    | .given, .inferred => n
    | _, _ => ⟨n.candidates.union other.candidates, n.confidence⟩

end Names

end ShapeGraph
