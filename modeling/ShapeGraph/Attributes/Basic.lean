import ShapeGraph.Attributes.Names
import ShapeGraph.Json.Basic
import ShapeGraph.Reference.Basic

/-!
# Attributes of types

What is attached to a type besides its structure: candidate names and descriptions.

## Main definitions

* `Attributes` — names and descriptions.
* `Attributes.merge` — the attributes from two sources.
* `Attributes.ofSchema` — the attributes that a schema states at its path.
-/

set_option autoImplicit false

namespace ShapeGraph

/-- What is attached to a type besides its structure. -/
structure Attributes where
  /-- Candidate names. -/
  names : Names
  /-- Descriptions. -/
  descriptions : SortedSet String
deriving DecidableEq, Inhabited

namespace Attributes

/-- No attribute. -/
def empty : Attributes := ⟨.empty, ∅⟩

/-- Whether there is no attribute. -/
def isEmpty (a : Attributes) : Bool := a.names.isEmpty && a.descriptions.isEmpty

/-- The attributes from two sources. -/
def merge (a other : Attributes) : Attributes :=
  ⟨a.names.merge other.names, a.descriptions.union other.descriptions⟩

/-- The text of a schema's field, if it is a string. -/
def textField? (schema : Json) (key : String) : Option String := (schema.get? key).bind Json.text?

/-- The names for a schema: as long as the names passed to it are only inferred, its title, or else
the definition that its path ends in, takes their place. -/
def namesOf (schema : Json) (path : Reference) (hints : Names) : Names :=
  if hints.isInferred then
    match textField? schema "title" with
    | some title => .given title
    | none =>
      match path.definitionName? with
      | some name => .given name
      | none => hints
  else hints

/-- The attributes that a schema states at its path, given the names passed to it. -/
def ofSchema (schema : Json) (path : Reference) (hints : Names) : Attributes :=
  ⟨namesOf schema path hints,
    match textField? schema "description" with
    | some text => .singleton text
    | none => ∅⟩

end Attributes

end ShapeGraph
