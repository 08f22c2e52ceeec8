import ShapeGraph.Failure
import ShapeGraph.Text.Segments

/-!
# File trees

Files and directories, and what reading and writing by path finds among them.

## Main definitions

* `Entry` — a directory or a file, with its text if it has one.
* `FileTree` — the entries by the names that lead to them from the root, and the working directory.
* `FileTree.descend`, `FileTree.walk` — where a path leads, step by step.
* `FileTree.joinPath`, `FileTree.components` — paths put together and taken apart.
* `FileTree.read`, `FileTree.write`, `FileTree.remove` — the files themselves.
* `FileTree.filesBelow` — all files below a directory.

## Implementation notes

A path is walked component by component.  Only a directory can be walked through, also by `.` and by
the empty component after a slash at the end, and `..` leads out of a directory that has been walked
into.  The directories on the way to the working directory are always there.
-/

set_option autoImplicit false

namespace ShapeGraph

/-- What stands at a path. -/
inductive Entry where
  /-- A directory. -/
  | directory
  /-- A file with a text. -/
  | text (content : String)
  /-- A file whose bytes are no text. -/
  | binary
deriving DecidableEq, Inhabited

/-- Files and directories, by the names on the way from the root to them. -/
structure FileTree where
  /-- The names on the way to the working directory. -/
  here : List String
  /-- What is known to be there. -/
  entries : List (List String × Entry)
deriving Inhabited

namespace FileTree

/-- The tree with nothing but a working directory. -/
def empty (here : List String) : FileTree := ⟨here, []⟩

/-- The entry that some names lead to. -/
def entry? (tree : FileTree) (names : List String) : Option Entry :=
  if names.isPrefixOf tree.here then some .directory else tree.entries.lookup names

/-! ## Walking -/

/-- The greatest length of a name in bytes. -/
def maxNameLength : Nat := 255

/-- One step of a walk from a directory by a component of a path. -/
def descend (tree : FileTree) (names : List String) (component : String) :
    Except FileFault (List String) :=
  match tree.entry? names with
  | none => .error .notFound
  | some .directory =>
    if component = ".." then .ok names.dropLast
    else if component = "." ∨ component = "" then .ok names
    else if maxNameLength < component.utf8ByteSize then .error .nameTooLong
    else .ok (names ++ [component])
  | some _ => .error .notDirectory

/-- Whether a path starts at the root. -/
def isAbsolute (path : String) : Bool := ['/'].isPrefixOf path.toList

/-- Where a walk along a path starts. -/
def startOf (tree : FileTree) (path : String) : List String :=
  if isAbsolute path then [] else tree.here

/-- The greatest length of a path in bytes. -/
def maxPathLength : Nat := 4095

/-- A path has to be there, must not hold the character NUL, and must not be too long. -/
def checkPath (path : String) : Except FileFault Unit :=
  if path.toList.contains (Char.ofNat 0) then .error .nulInPath
  else if path = "" then .error .notFound
  else if maxPathLength < path.utf8ByteSize then .error .nameTooLong
  else .ok ()

/-- Where a path leads; the last name on it need not exist. -/
def walk (tree : FileTree) (path : String) : Except FileFault (List String) := do
  checkPath path
  (segments '/' path).foldlM tree.descend (tree.startOf path)

/-! ## Paths -/

/-- A path below a directory; an absolute path stands for itself.  A slash is put between them, unless
the directory ends in one or there is none. -/
def joinPath (directory path : String) : String :=
  if isAbsolute path then path
  else if directory = "" ∨ directory.toList.getLast? = some '/' then directory ++ path
  else directory ++ "/" ++ path

/-- Whether a component of a path is a name or leads upwards. -/
def moves (component : String) : Bool := component ≠ "" && component ≠ "."

/-- What a path starts with besides that: the root, or a dot. -/
def anchor (path : String) : List String :=
  if isAbsolute path then ["/"]
  else if (segments '/' path).head? = some "." then ["."]
  else []

/-- The components of a path.  Dots and empty components inside it do not count. -/
def components (path : String) : List String :=
  anchor path ++ (segments '/' path).filter moves

/-- The components of a path after those of a directory.  If it does not start with these, then all of
them. -/
def componentsAfter (directory path : String) : List String :=
  if (components directory).isPrefixOf (components path) then
    (components path).drop (components directory).length
  else components path

/-! ## Files -/

/-- The text of the file that some names lead to. -/
def readAt (tree : FileTree) (names : List String) : Except FileFault String :=
  match tree.entry? names with
  | none => .error .notFound
  | some .directory => .error .isDirectory
  | some .binary => .error .notText
  | some (.text content) => .ok content

/-- The text of the file at a path. -/
def read (tree : FileTree) (path : String) : Except FileFault String := do
  tree.readAt (← tree.walk path)

/-- What stands at a path. -/
def entryAt? (tree : FileTree) (path : String) : Option Entry :=
  match tree.walk path with
  | .ok names => tree.entry? names
  | .error _ => none

/-- Whether there is a file at a path. -/
def isFile (tree : FileTree) (path : String) : Bool :=
  match tree.entryAt? path with
  | some (.text _) | some .binary => true
  | _ => false

/-- The tree with an entry at some names, and with the directories that lead to it. -/
def put (tree : FileTree) (names : List String) (entry : Entry) : FileTree :=
  let parents := (List.range names.length).map names.take
  let missing := parents.filter fun d => (tree.entry? d).isNone
  let others := tree.entries.filter fun e => e.1 ≠ names
  ⟨tree.here, others ++ missing.map (·, .directory) ++ [(names, entry)]⟩

/-- The tree after a text has been written to the file at a path.  The directory must be there; the
file need not, but a slash at the end asks for a directory. -/
def write (tree : FileTree) (path content : String) : Except FileFault FileTree := do
  checkPath path
  let components := segments '/' path
  let named := (components.reverse.dropWhile (· = "")).reverse
  let parent ← named.dropLast.foldlM tree.descend (tree.startOf path)
  let parent ← tree.descend parent "."
  match named.getLast? with
  | some name =>
    if named.length < components.length ∨ name = "." ∨ name = ".." then .error .isDirectory
    else if maxNameLength < name.utf8ByteSize then .error .nameTooLong
    else if tree.entry? (parent ++ [name]) = some .directory then .error .isDirectory
    else .ok (tree.put (parent ++ [name]) (.text content))
  | none => .error .isDirectory

/-- The tree without the file at some names. -/
def remove (tree : FileTree) (names : List String) : FileTree :=
  ⟨tree.here, tree.entries.filter fun e => e.1 ≠ names⟩

/-! ## Listing -/

/-- Whether a name ends in `.json` and has something before that. -/
def isJsonName (name : String) : Bool :=
  ".json".toList.isSuffixOf name.toList && 5 < name.length

/-- Whether the last component of a path is such a name. -/
def isJsonPath (path : String) : Bool := (components path).getLast?.any isJsonName

/-- The files at or below some names, each by the names that lead to it from there, in order. -/
def filesBelow (tree : FileTree) (names : List String) : List (List String) :=
  let files := tree.entries.filter fun e => e.2 ≠ .directory && names.isPrefixOf e.1
  (files.map fun e => e.1.drop names.length).mergeSort fun a b => !b.lex a fun x y => x < y

end FileTree

end ShapeGraph
