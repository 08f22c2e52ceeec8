import ShapeGraph.Command.Run

/-!
# The program

The command line works on a tree of files in memory.  This module makes that tree from the files on
disk, as far as the command line needs them, and carries out what it reports.

## Implementation notes

Files are added on demand: where a document is not found in the tree but on disk, it is added, and
the command line runs once more.
-/

set_option autoImplicit false

namespace ShapeGraph

namespace Program

/-! ## Files -/

/-- What stands on disk at a path. -/
def entryOnDisk? (path : String) : IO (Option Entry) := do
  let file := (← IO.currentDir) / path
  if ← file.isDir then return some .directory
  else if ← file.pathExists then
    let bytes ← IO.FS.readBinFile file
    return some (match String.fromUTF8? bytes with
      | some content => .text content
      | none => .binary)
  else return none

/-- Add what stands on disk at a path, and on the way to it. -/
def addPath (tree : FileTree) (path : String) : IO FileTree := do
  let pieces := segments '/' path
  let mut tree := tree
  for i in List.range pieces.length do
    let part := joinSegments '/' (pieces.take (i + 1))
    match tree.walk part with
    | .ok names =>
      if (tree.entry? names).isNone then
        match ← entryOnDisk? part with
        | some entry => tree := tree.put names entry
        | none => pure ()
    | .error _ => pure ()
  return tree

/-- Add all files below a directory on disk. -/
partial def addBelow (tree : FileTree) (directory : String) : IO FileTree := do
  let mut tree ← addPath tree directory
  for entry in ← ((← IO.currentDir) / directory).readDir do
    let path := FileTree.joinPath directory entry.fileName
    if ← entry.path.isDir then tree ← addBelow tree path
    else if FileTree.isJsonName entry.fileName then tree ← addPath tree path
  return tree

/-- The working directory without any files. -/
def workingDirectory : IO FileTree := do
  return FileTree.empty ((segments '/' (← IO.currentDir).toString).filter (· ≠ ""))

/-! ## Surroundings -/

/-- The file in which the system keeps the variables of this process. -/
def environmentFile : String := "/proc/self/environ"

/-- The name and the value of a variable, which stand on both sides of the first equals sign. -/
def variableOf? (entry : String) : Option (String × String) :=
  match segments '=' entry with
  | name :: value :: rest => some (name, joinSegments '=' (value :: rest))
  | _ => none

/-- The variables that a text lists, each ended by a zero character. -/
def variablesOf (text : String) : List (String × String) :=
  (segments '\x00' text).filterMap variableOf?

/-- The variables that set something on their own. -/
def variableNames : List String :=
  ["CONVERT__MAX_DEPTH", "CONVERT__INCLUDE_DEFINITIONS", "CONVERT__ROOT_NAME", "OUTPUT__FORMAT",
    "OUTPUT__PRETTY", "LOGGING__LEVEL"].map ("TYPEGRAPH__" ++ ·)

/-- The variables with known names, where the system does not list all of them. -/
def knownVariables : IO (List (String × String)) := do
  let found ← variableNames.mapM fun name => do return (← IO.getEnv name).map (name, ·)
  return found.filterMap id

/-- The environment. -/
def environment : IO (List (String × String)) := do
  try
    match String.fromUTF8? (← IO.FS.readBinFile environmentFile) with
    | some text => return variablesOf text
    | none => knownVariables
  catch _ => knownVariables

/-- The user's settings file. -/
def userFile? : IO (Option String) := do
  let home := (← IO.getEnv "HOME").map (· ++ "/.config")
  let base := ((← IO.getEnv "XDG_CONFIG_HOME").filter FileTree.isAbsolute).or home
  return base.map (· ++ "/typegraph/typegraph.toml")

/-- Add the files that may hold settings. -/
def addSettings (tree : FileTree) (paths : List String) : IO FileTree :=
  (paths.flatMap fun path => path :: (Settings.variants path).map Prod.fst).foldlM addPath tree

/-! ## Running -/

/-- The path of the document that a fault says is not found, given the directory of the schema. -/
def missingPath? (directory : String) : Command.Fault → Option String
  | .failed _ (.documentNotFound address) => some (FileTree.joinPath directory address)
  | _ => none

/-- Run a command line, adding documents as long as they are missing in the tree but not on disk. -/
partial def runWith (tree : FileTree) (userFile : Option String)
    (environment : List (String × String)) (arguments : List String) (directory : String) :
    IO (Except Command.Fault (String × FileTree)) := do
  let result := Command.execute tree userFile environment arguments
  match result with
  | .ok _ => return result
  | .error fault =>
    match missingPath? directory fault with
    | none => return result
    | some path =>
      let more ← addPath tree path
      if (more.entryAt? path).isSome then runWith more userFile environment arguments directory
      else return result

/-- The files that a command line with these arguments needs from the start. -/
def gather (tree : FileTree) (userFile : Option String) (a : Arguments) (directory : String) :
    IO FileTree := do
  let tree ← addSettings tree (Settings.defaultPaths ++ userFile.toList ++ a.config.toList)
  let tree ← a.output.toList.foldlM addPath tree
  if a.preload then
    try addBelow tree directory
    catch _ => return tree
  else return tree

/-- Write the file that a command line has written to its tree. -/
def keep (a : Arguments) (tree : FileTree) : IO UInt32 := do
  match a.output with
  | none => return 0
  | some path =>
    try
      match tree.read path with
      | .ok content => IO.FS.writeFile ((← IO.currentDir) / path) content
      | .error _ => pure ()
      return 0
    catch fault =>
      IO.eprintln ("Error: writing " ++ path ++ ": " ++ toString fault)
      return 1

/-- Print a report. -/
def print (report : Command.Report) : IO UInt32 := do
  IO.print report.output
  IO.eprint report.errors
  return report.exitCode.toUInt32

/-- Run the program. -/
def run (arguments : List String) : IO UInt32 := do
  match Arguments.parse arguments with
  | .error fault => print (Command.Fault.report (.usage fault))
  | .ok (a, schema) =>
    let userFile ← userFile?
    let directory := ((Command.splitPath? schema).map Prod.fst).getD "."
    let tree ← gather (← workingDirectory) userFile a directory
    let result ← runWith tree userFile (← environment) arguments directory
    let code ← print (Command.report result)
    match result with
    | .ok (_, tree) => keep a tree
    | .error _ => return code

end Program

end ShapeGraph

/-- Convert the schema that the arguments name. -/
def main (arguments : List String) : IO UInt32 := ShapeGraph.Program.run arguments
