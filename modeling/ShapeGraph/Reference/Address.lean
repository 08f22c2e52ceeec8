import ShapeGraph.Text.Segments

/-!
# Document addresses

A document is known by its address: a path below some base directory, an absolute path or a URL.
A reference gives the address of another document relative to the one it stands in.

## Main definitions

* `Address.join` — the address that a relative address means inside a document.
* `Address.descend` — one step of that walk through directories.

## Implementation notes

The referring document's file name is dropped and the relative address is walked from its
directory: `..` goes up, and stays at the top once there, `.` and empty components do nothing, all
others go down.  Empty components of the referring address disappear as well.  Absolute paths and
URLs stand for themselves.
-/

set_option autoImplicit false

namespace ShapeGraph

namespace Address

/-- Whether an address means the same from everywhere: an absolute path or a URL. -/
def isStandalone (address : String) : Bool :=
  ['/'].isPrefixOf address.toList || hasInfix "://" address

/-- The directory reached from a directory by one component of a path. -/
def descend (directory : List String) (component : String) : List String :=
  if component = ".." then directory.dropLast
  else if component = "." ∨ component = "" then directory
  else directory ++ [component]

/-- The address that `relative` means in the document at `base`. -/
def join (base relative : String) : String :=
  if isStandalone relative then relative
  else
    let directory := (segments '/' base).dropLast
    let reached := (segments '/' relative).foldl descend directory
    joinSegments '/' (reached.filter (· ≠ ""))

end Address

end ShapeGraph
