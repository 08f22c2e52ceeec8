import ShapeGraph.Digest.Sha256
import ShapeGraph.Documents.Source
import ShapeGraph.Files.FileTree
import ShapeGraph.Json.Parser
import ShapeGraph.Order.SortedMap

/-!
# Documents in a directory

Documents are files below a base directory and are read when they are asked for, once each.

## Main definitions

* `DirectoryStore` — a base directory with the documents read so far.
* `DirectoryStore.fetch` — the document at an address.
* `DirectoryStore.preloadAt`, `DirectoryStore.preload` — read all documents below a directory.
* `DirectoryStore.bundleText`, `DirectoryStore.bundleHash` — what identifies the documents read.

## Implementation notes

A document that has been read is kept; that its file changes or disappears is not noticed afterwards.
Nothing is kept of a file that could not be read.  The same file under two spellings of its address
is two documents.  In which order the files of a directory are listed is up to the system; here they are
sorted.
-/

set_option autoImplicit false

namespace ShapeGraph

/-- A directory of documents. -/
structure DirectoryStore where
  /-- The files. -/
  tree : FileTree
  /-- The path of the base directory. -/
  base : String
  /-- The documents read so far, by address. -/
  cache : SortedMap String Json
deriving Inhabited

namespace DirectoryStore

/-- A base directory of which nothing has been read. -/
def ofBase (tree : FileTree) (base : String) : DirectoryStore := ⟨tree, base, ∅⟩

/-! ## Reading -/

/-- The document that a file holds, given what reading it gave. -/
def documentOf (address : String) (content : Except FileFault String) : Except Failure Json :=
  match content with
  | .error .notFound => .error (.documentNotFound address)
  | .error fault => .error (.unreadable fault)
  | .ok text =>
    match Json.parse? Json.nestingLimit text with
    | none => .error (.invalidDocument address .malformed)
    | some document =>
      match checkDocument address document with
      | .ok () => .ok document
      | .error failure => .error failure

/-- Keep the document at an address, if there is one. -/
def keep (store : DirectoryStore) (address : String) (document : Except Failure Json) :
    Except Failure Json × DirectoryStore :=
  match document with
  | .ok value => (.ok value, { store with cache := store.cache.insert address value })
  | .error failure => (.error failure, store)

/-- The document at an address: as it was read before, or else from its file. -/
def fetch (store : DirectoryStore) (address : String) : Except Failure Json × DirectoryStore :=
  match store.cache.find? address with
  | some document => (.ok document, store)
  | none =>
    let path := FileTree.joinPath store.base address
    store.keep address (documentOf address (store.tree.read path))

/-! ## Reading ahead -/

/-- Read the files at some paths, each under an address, unless that address is known already.
Also the number of those that were read; the first failure ends it. -/
def loadAll (store : DirectoryStore) : List (String × String) → Nat →
    Except Failure Nat × DirectoryStore
  | [], count => (.ok count, store)
  | (address, path) :: rest, count =>
    if store.cache.contains address then store.loadAll rest count
    else
      match store.keep address (documentOf address (store.tree.read path)) with
      | (.ok _, store) => store.loadAll rest (count + 1)
      | (.error failure, store) => (.error failure, store)

/-- The address of the file at a path: its components after those of the base directory. -/
def addressOf (store : DirectoryStore) (path : String) : String :=
  joinSegments '/' ((FileTree.componentsAfter store.base path).filter (· ≠ "."))

/-- The documents at or below the directory at a path: their addresses and the paths of their files. -/
def documentsBelow (store : DirectoryStore) (directory : String) : List (String × String) :=
  match store.tree.walk directory with
  | .ok names =>
    let paths := (store.tree.filesBelow names).map (·.foldl FileTree.joinPath directory)
    (paths.filter fun path => FileTree.isJsonPath path && store.tree.isFile path).map fun path =>
      (store.addressOf path, path)
  | .error _ => []

/-- Read all documents at or below the directory at a path that have not been read yet; their number. -/
def preloadAt (store : DirectoryStore) (directory : String) :
    Except Failure Nat × DirectoryStore :=
  store.loadAll (store.documentsBelow directory) 0

/-- Read all documents below a directory that is given relative to the base. -/
def preload (store : DirectoryStore) (directory : String) :
    Except Failure Nat × DirectoryStore :=
  store.preloadAt (FileTree.joinPath store.base directory)

/-! ## Identification -/

/-- The addresses of the documents read so far, in order. -/
def addresses (store : DirectoryStore) : List String := store.cache.keys

/-- The text that identifies the documents read so far: each address, followed by its document. -/
def bundleText (store : DirectoryStore) : String :=
  String.join (store.cache.entries.map fun e => e.1 ++ e.2.compact)

/-- The digest of that text. -/
def bundleHash (store : DirectoryStore) : String :=
  Sha256.hex (Sha256.digest store.bundleText.toUTF8.toList)

/-! ## Extent -/

/-- The documents that files hold, whatever their addresses are. -/
def documentsInFiles (store : DirectoryStore) : List Json :=
  store.tree.entries.filterMap fun e =>
    match e.2 with
    | .text content => Json.parse? Json.nestingLimit content
    | _ => none

/-- A bound for the number of addresses of at most so many bytes: a character is one of less than two to
the power of 21. -/
@[irreducible]
def addressBound (bytes : Nat) : Nat := Nat.pow 2 (21 * bytes)

/-- A bound for the documents in files and those that are kept.  A file may have many addresses, but its
document counts once. -/
def extent (store : DirectoryStore) : Extent :=
  let inFiles := store.documentsInFiles.map fun document => ("", document)
  ((inFiles ++ store.cache.entries).map fun e => Extent.ofDocument e.1 e.2).foldl .join
    ⟨0, 0, addressBound FileTree.maxPathLength⟩

instance : DocumentSource DirectoryStore where
  fetch := fetch
  extent := extent

end DirectoryStore

end ShapeGraph
