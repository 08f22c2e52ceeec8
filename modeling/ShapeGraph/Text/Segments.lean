/-!
# Segments of a text

Addresses and pointers are texts cut at slashes.  This module cuts a text at a separator and glues
the pieces together again, and finds one text inside another.

## Main definitions

* `segments` — the pieces of a text between the occurrences of a separator.
* `joinSegments` — the pieces glued together with a separator.
* `splitFirst` — what stands before and after the first occurrence of a separator.
* `hasInfix` — whether a text occurs inside another.

## Main results

* `joinSegments_segments` — gluing undoes cutting.
* `segments_ne_nil` — there is always at least one piece.
-/

set_option autoImplicit false

namespace ShapeGraph

/-- The pieces of `s` between the occurrences of `sep`: one more than there are separators. -/
def segments (sep : Char) (s : String) : List String :=
  (s.toList.splitOn sep).map String.ofList

/-- The pieces one after the other, with `sep` between neighbours. -/
def joinSegments (sep : Char) (pieces : List String) : String :=
  String.ofList ([sep].intercalate (pieces.map String.toList))

/-- Gluing the pieces of a text gives the text. -/
@[simp] theorem joinSegments_segments (sep : Char) (s : String) :
    joinSegments sep (segments sep s) = s := by
  simp [joinSegments, segments, Function.comp_def, List.intercalate_splitOn]

/-- Even the empty text has one piece, the empty one. -/
theorem segments_ne_nil (sep : Char) (s : String) : segments sep s ≠ [] := by
  simp [segments]

/-- The text before the first `sep` and the text after it, if there is one. -/
def splitFirst (sep : Char) (s : String) : Option (String × String) :=
  match s.toList.dropWhile (· != sep) with
  | [] => none
  | _ :: after => some (String.ofList (s.toList.takeWhile (· != sep)), String.ofList after)

/-- Whether `part` occurs in `s`. -/
def hasInfix (part s : String) : Bool := go s.toList
where
  /-- Whether the wanted text starts at some place of a list of characters. -/
  go : List Char → Bool
    | [] => part.toList.isEmpty
    | c :: rest => part.toList.isPrefixOf (c :: rest) || go rest

end ShapeGraph
