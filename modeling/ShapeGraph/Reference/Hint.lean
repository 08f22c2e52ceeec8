import ShapeGraph.Failure

/-!
# Names suggested by references

The target of a reference is often best named after the last definition on the way to it.

## Main definitions

* `Reference.hint` — the name that a reference suggests for its target.

## Implementation notes

The elements are searched from the last one backwards.  Keys of members and sub-schemas of
combinators suggest nothing of their own and leave it to what contains them; an index, a definition
and the root do.  The elements that lead nowhere in the text of a schema must not be met.
-/

set_option autoImplicit false

namespace ShapeGraph

/-- Whether a key consists of decimal digits. -/
def isDecimalKey (key : String) : Bool := key.toList ≠ [] && key.toList.all Char.isDigit

/-- The name suggested by the first of some elements that suggests one. -/
def hintAmong (whole : Reference) : List PathElement → Except Failure (Option String)
  | [] => .ok none
  | .root :: _ => .ok (some "Root")
  | .definition name :: _ => .ok (some name)
  | .key key :: rest => if isDecimalKey key then .ok (some key) else hintAmong whole rest
  | .branch _ _ :: rest => hintAmong whole rest
  | .typeBranch _ :: _ | .object :: _ => .error (.nameless whole)

/-- The name that a reference suggests for its target, if it suggests one. -/
def Reference.hint (r : Reference) : Except Failure (Option String) :=
  hintAmong r r.elements.reverse

end ShapeGraph
