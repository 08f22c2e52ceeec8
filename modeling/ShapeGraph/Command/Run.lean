import ShapeGraph.Command.Arguments
import ShapeGraph.Command.Summary
import ShapeGraph.Conversion.Run
import ShapeGraph.Graph.Dot
import ShapeGraph.Graph.Snapshot
import ShapeGraph.Json.Printer
import ShapeGraph.Settings.Sources

/-!
# Running a command line

A command line converts the schema in a file and prints the graph, or writes it to a file.

## Main definitions

* `Command.Fault` — why a command line fails.
* `Command.execute` — what a command line does to a tree of files, and what it prints.
* `Command.Report` — the same as text for the two streams and an exit code.

## Implementation notes

Settings are read before anything else, then documents, and entry points last.  The documents of a
schema are addressed from the directory that it is in.
-/

set_option autoImplicit false

namespace ShapeGraph

namespace Command

/-! ## Failures -/

/-- What was being done when a failure occurred. -/
inductive Activity where
  /-- Reading all documents of a directory. -/
  | preloading (directory : String)
  /-- Reading the schema. -/
  | loading (schema : String)
  /-- Converting. -/
  | converting
deriving DecidableEq

/-- Why a command line fails. -/
inductive Fault where
  /-- The arguments cannot be read. -/
  | usage (fault : UsageFault)
  /-- The settings cannot be loaded. -/
  | settings (fault : Settings.LoadFault)
  /-- The path of the schema ends in no name. -/
  | noFileName (path : String)
  /-- A top-level type is given without an equals sign. -/
  | noReference (entry : String)
  /-- A top-level type is given without a name. -/
  | noName (entry : String)
  /-- A document or schema is at fault. -/
  | failed (activity : Activity) (failure : Failure)
  /-- The output cannot be written. -/
  | unwritten (path : String) (fault : FileFault)

/-- What stands in front of a failure. -/
def Activity.introduction : Activity → String
  | .preloading directory => "preloading " ++ directory ++ ": "
  | .loading schema => "loading " ++ schema ++ ": "
  | .converting => ""

/-- What stands after a failure that has a cause of its own. -/
def causeOf : Failure → String
  | .unreadable fault => ": " ++ fault.message
  | _ => ""

/-- The wording of a fault. -/
def Fault.message : Fault → String
  | .usage fault => fault.message
  | .settings .invalid => "the settings cannot be loaded"
  | .settings .noSuchPlace => "a setting leads to a place that a list cannot have"
  | .noFileName path => "not a schema file: " ++ path
  | .noReference entry => "top-level must be NAME=REF, got '" ++ entry ++ "'"
  | .noName entry => "top-level name is empty in '" ++ entry ++ "'"
  | .failed activity failure => activity.introduction ++ failure.message ++ causeOf failure
  | .unwritten path fault => "writing " ++ path ++ ": " ++ fault.message

/-! ## Paths -/

/-- Without the last pieces that lead nowhere; the first piece stays. -/
def trimPieces (pieces : List String) : List String :=
  pieces.take 1 ++ ((pieces.drop 1).reverse.dropWhile fun s => s = "" || s = ".").reverse

/-- The directory and the name of a file, unless the path ends in no name. -/
def splitPath? (path : String) : Option (String × String) :=
  let pieces := trimPieces (segments '/' path)
  match pieces.getLast? with
  | some name =>
    if name = "" ∨ name = "." ∨ name = ".." then none
    else
      let directory := trimPieces pieces.dropLast
      if directory = [] then some (".", name)
      else if directory = [""] then some ("/", name)
      else some (joinSegments '/' directory, name)
  | none => none

/-! ## Steps -/

/-- The entry points: those that are given, or else the root of the document. -/
def entryPoints (given : List String) (address rootName : String) :
    Except Fault (SortedMap String Reference) := do
  if given.isEmpty then return .ofList [(rootName, .root address)]
  else
    let points ← given.mapM fun entry =>
      match splitFirst '=' entry with
      | none => .error (.noReference entry)
      | some (name, text) =>
        if name = "" then .error (.noName entry) else .ok (name, Reference.parse address text)
    return .ofList points

/-- The settings after the arguments have had their say. -/
def adjust (a : Arguments) (s : Settings) : Settings :=
  { s with
    maxDepth := a.maxDepth.getD s.maxDepth
    includeDefinitions := s.includeDefinitions && !a.noDefinitions
    format := a.format.getD s.format }

/-- A result of a store, or the fault that stands for its failure. -/
def attempt {α : Type} (activity : Activity) (result : Except Failure α) : Except Fault α :=
  match result with
  | .ok a => .ok a
  | .error failure => .error (.failed activity failure)

/-- The finished graph as a text. -/
def render (s : Settings) (g : TypeGraph) (store : DirectoryStore) : String :=
  match s.format with
  | .summary => summary g store
  | .json => if s.pretty then g.snapshot.pretty else g.snapshot.compact
  | .dot => g.toDot

/-- Convert the schema at a path and show the graph. -/
def convert (s : Settings) (a : Arguments) (schema : String) (tree : FileTree) :
    Except Fault String := do
  match splitPath? schema with
  | none => .error (.noFileName schema)
  | some (directory, address) =>
    let store := DirectoryStore.ofBase tree directory
    let (loaded, store) := if a.preload then store.preloadAt directory else (.ok 0, store)
    let _ ← attempt (.preloading directory) loaded
    let (fetched, store) := store.fetch address
    let document ← attempt (.loading schema) fetched
    let points ← entryPoints a.topLevels address s.rootName
    let topLevels := topLevelRefs document address points s.includeDefinitions
    match (Conversion.convertAll s.limit document address topLevels).run (Progress.start store) with
    | .ok _ progress => return render s progress.graph progress.documents
    | .error failure _ => .error (.failed .converting failure)

/-- What a command line prints, and the files after it has run. -/
def execute (tree : FileTree) (userFile : Option String) (environment : List (String × String))
    (arguments : List String) : Except Fault (String × FileTree) := do
  match Arguments.parse arguments with
  | .error fault => .error (.usage fault)
  | .ok (a, schema) =>
    match Settings.load tree userFile a.config environment with
    | .error fault => .error (.settings fault)
    | .ok s =>
      let text ← convert (adjust a s) a schema tree
      match a.output with
      | none => return (text ++ "\n", tree)
      | some path =>
        match tree.write path text with
        | .ok tree => return ("", tree)
        | .error fault => .error (.unwritten path fault)

/-! ## Reports -/

/-- What can be observed of a command line. -/
structure Report where
  /-- The exit code. -/
  exitCode : UInt8
  /-- What is printed. -/
  output : String
  /-- What is printed as an error. -/
  errors : String

/-- How to use the command line. -/
def usageText : String :=
  "Usage: typegraph [OPTIONS] <SCHEMA>\n\n"
    ++ "  -t, --top-level <NAME=REF>  One more top-level type\n"
    ++ "      --no-definitions        Leave definitions out of the top-level types\n"
    ++ "  -f, --format <FORMAT>       summary, json or dot\n"
    ++ "  -o, --output <OUTPUT>       The file to write to\n"
    ++ "  -c, --config <CONFIG>       A settings file\n"
    ++ "      --max-depth <MAX_DEPTH> How deep schemas may be nested, 0 for no limit\n"
    ++ "      --preload               Read all documents of the schema's directory\n"
    ++ "  -h, --help                  Print help\n"

/-- The exit code after a fault. -/
def Fault.exitCode : Fault → UInt8
  | .usage .helpWanted => 0
  | .usage _ => 2
  | .settings .noSuchPlace => 101
  | _ => 1

/-- The report of a fault. -/
def Fault.report (fault : Fault) : Report :=
  match fault with
  | .usage .helpWanted => ⟨fault.exitCode, usageText, ""⟩
  | .usage mistake => ⟨fault.exitCode, "", "error: " ++ mistake.message ++ "\n\n" ++ usageText⟩
  | _ => ⟨fault.exitCode, "", "Error: " ++ fault.message ++ "\n"⟩

/-- The report of a command line. -/
def report (result : Except Fault (String × FileTree)) : Report :=
  match result with
  | .ok (output, _) => ⟨0, output, ""⟩
  | .error fault => fault.report

end Command

end ShapeGraph
