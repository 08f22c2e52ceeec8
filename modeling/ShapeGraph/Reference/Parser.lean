import ShapeGraph.Reference.Address
import ShapeGraph.Reference.Basic

/-!
# Reading references

## Main definitions

* `Reference.elementsOf` — the steps that the segments of a pointer stand for.
* `Reference.parse` — the reference that a text means in a document.

## Implementation notes

`other.json#/definitions/A` leads into another document, `#/…` into the same one, and a text without
`#` leads from where it stands.  The segment `definitions` and the one after it make up one step, and
a segment `#` leads back to the root.
-/

set_option autoImplicit false

namespace ShapeGraph

namespace Reference

/-- The steps that the segments of a pointer stand for. -/
def elementsOf : List String → List PathElement
  | [] => []
  | [s] => [if s = "#" then .root else .key (Pointer.unescape s)]
  | s :: t :: rest =>
    if s = "#" then .root :: elementsOf (t :: rest)
    else if s = "definitions" then .definition (Pointer.unescape t) :: elementsOf rest
    else .key (Pointer.unescape s) :: elementsOf (t :: rest)

/-- The steps that a pointer stands for. -/
def parsePointer (pointer : String) : List PathElement := elementsOf (segments '/' pointer)

/-- A text without one slash at its beginning. -/
def dropLeadingSlash (s : String) : String :=
  match s.toList with
  | '/' :: rest => String.ofList rest
  | _ => s

/-- The reference that a text means in the document at `base`. -/
def parse (base text : String) : Reference :=
  match splitFirst '#' text with
  | none => ⟨base, parsePointer text⟩
  | some (address, fragment) =>
    let pointer := dropLeadingSlash fragment
    ⟨if address = "" then base else Address.join base address,
      .root :: if pointer = "" then [] else parsePointer pointer⟩

end Reference

end ShapeGraph
