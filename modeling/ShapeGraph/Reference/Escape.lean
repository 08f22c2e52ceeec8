import ShapeGraph.Text.Replacement

/-!
# Escaped pointer segments

Inside a pointer a slash separates segments, so a slash in a key is written `~1`, and a tilde, which
marks such escapes, `~0`.

## Main definitions

* `Pointer.escape`, `Pointer.unescape` — a key as a segment, and a segment as a key.

## Implementation notes

Each way takes two passes over the whole text.  Writing begins with the tildes, so that those of the
escapes for slashes stay; reading ends with them, so that `~01` is read as `~1` and not as a slash.  A
tilde that starts no escape stands for itself, so every segment can be read, also one that `escape`
never writes.
-/

set_option autoImplicit false

namespace ShapeGraph

namespace Pointer

/-- A key as a segment of a pointer. -/
def escape (key : String) : String :=
  String.ofList (replaceAll ['/'] ['~', '1'] (replaceAll ['~'] ['~', '0'] key.toList))

/-- The key that a segment of a pointer stands for. -/
def unescape (segment : String) : String :=
  String.ofList (replaceAll ['~', '0'] ['~'] (replaceAll ['~', '1'] ['/'] segment.toList))

end Pointer

end ShapeGraph
