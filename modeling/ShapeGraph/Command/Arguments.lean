import ShapeGraph.Settings.Basic
import ShapeGraph.Text.Segments

/-!
# Command line arguments

## Main definitions

* `Arguments` — what the arguments of a command line ask for.
* `Arguments.parse` — read the arguments.
* `UsageFault` — why they cannot be read.

## Implementation notes

Options come before or after the schema, and everything after `--` is no option.  The value of an
option is the next argument, or stands in the same one after an equals sign, and for options of one
letter also directly after the letter.  An argument that looks like an option is never a value.  Only
`--top-level` may be given several times.
-/

set_option autoImplicit false

namespace ShapeGraph

/-- What the arguments of a command line ask for. -/
structure Arguments where
  /-- The file with the schema. -/
  schema : Option String
  /-- Names with references, in order. -/
  topLevels : List String
  /-- Whether definitions are left out. -/
  noDefinitions : Bool
  /-- How the graph is shown. -/
  format : Option OutputFormat
  /-- The file to write to. -/
  output : Option String
  /-- A settings file. -/
  config : Option String
  /-- The limit for the nesting of schemas; zero for none. -/
  maxDepth : Option Nat
  /-- Whether all documents of the directory are read. -/
  preload : Bool
deriving DecidableEq, Inhabited

/-- Why arguments cannot be read. -/
inductive UsageFault where
  /-- Only an explanation is asked for. -/
  | helpWanted
  /-- There is no such option. -/
  | unknownOption (argument : String)
  /-- One argument more than is expected. -/
  | unexpected (argument : String)
  /-- An option is given a second time. -/
  | repeated (option : String)
  /-- An option that needs a value has none. -/
  | valueMissing (option : String)
  /-- An option that has no value is given one. -/
  | valueRefused (option : String)
  /-- The value of an option is not one of its values. -/
  | invalidValue (option value : String)
  /-- There is no schema. -/
  | schemaMissing
deriving DecidableEq

/-- The wording of a fault. -/
def UsageFault.message : UsageFault → String
  | .helpWanted => ""
  | .unknownOption argument => "unexpected argument '" ++ argument ++ "' found"
  | .unexpected argument => "unexpected argument '" ++ argument ++ "' found"
  | .repeated option => "the argument '" ++ option ++ "' cannot be used multiple times"
  | .valueMissing option => "a value is required for '" ++ option ++ "' but none was supplied"
  | .valueRefused option => "the argument '" ++ option ++ "' takes no value"
  | .invalidValue option value => "invalid value '" ++ value ++ "' for '" ++ option ++ "'"
  | .schemaMissing => "the required argument <SCHEMA> was not provided"

namespace Arguments

/-- What is asked for without any argument. -/
def none : Arguments :=
  ⟨Option.none, [], false, Option.none, Option.none, Option.none, Option.none, false⟩

/-! ## Options -/

/-- The options. -/
inductive Choice where
  | topLevel
  | noDefinitions
  | format
  | output
  | config
  | maxDepth
  | preload
  | help
deriving DecidableEq, Inhabited

/-- Whether an option has a value. -/
def Choice.hasValue : Choice → Bool
  | .noDefinitions | .preload | .help => false
  | _ => true

/-- The option of a name. -/
def Choice.ofName? : String → Option Choice
  | "top-level" => some .topLevel
  | "no-definitions" => some .noDefinitions
  | "format" => some .format
  | "output" => some .output
  | "config" => some .config
  | "max-depth" => some .maxDepth
  | "preload" => some .preload
  | "help" => some .help
  | _ => Option.none

/-- The option of a letter. -/
def Choice.ofLetter? (letter : Char) : Option Choice :=
  if letter = 't' then some .topLevel
  else if letter = 'f' then some .format
  else if letter = 'o' then some .output
  else if letter = 'c' then some .config
  else if letter = 'h' then some .help
  else Option.none

/-- Set what must not be set twice. -/
def once {α : Type} (option : String) (old : Option α) (new : α) : Except UsageFault (Option α) :=
  if old.isSome then .error (.repeated option) else .ok (some new)

/-- Take note of an option without value. -/
def setFlag (a : Arguments) (option : String) : Choice → Except UsageFault Arguments
  | .noDefinitions =>
    if a.noDefinitions then .error (.repeated option) else .ok { a with noDefinitions := true }
  | .preload => if a.preload then .error (.repeated option) else .ok { a with preload := true }
  | .help => .error .helpWanted
  | _ => .error (.valueMissing option)

/-- Take note of an option with its value. -/
def setValue (a : Arguments) (option value : String) : Choice → Except UsageFault Arguments
  | .topLevel => .ok { a with topLevels := a.topLevels ++ [value] }
  | .format => do
    match OutputFormat.ofName? value with
    | some format => return { a with format := ← once option a.format format }
    | Option.none => .error (.invalidValue option value)
  | .output => do
    if value = "" then .error (.valueMissing option)
    else return { a with output := ← once option a.output value }
  | .config => do return { a with config := ← once option a.config value }
  | .maxDepth => do
    match Setting.count? value with
    | some depth => return { a with maxDepth := ← once option a.maxDepth depth }
    | Option.none => .error (.invalidValue option value)
  | _ => .error (.valueRefused option)

/-- Take note of the schema. -/
def setSchema (a : Arguments) (path : String) : Except UsageFault Arguments :=
  if a.schema.isSome then .error (.unexpected path)
  else if path = "" then .error .schemaMissing
  else .ok { a with schema := some path }

/-! ## Reading -/

/-- An argument taken apart. -/
inductive Piece where
  /-- No option. -/
  | plain
  /-- The mark after which there are no options. -/
  | endOfOptions
  /-- An option, perhaps with its value. -/
  | option (choice : Choice) (value : Option String)
  /-- An option that does not exist. -/
  | unknown
deriving DecidableEq, Inhabited

/-- Take an argument that begins with two hyphens apart. -/
def pieceOfName (body : String) : Piece :=
  let (name, value) := match splitFirst '=' body with
    | some (name, value) => (name, some value)
    | Option.none => (body, Option.none)
  match Choice.ofName? name with
  | some choice => .option choice value
  | Option.none => .unknown

/-- Take an argument apart that begins with one hyphen, after which `letter` comes. -/
def pieceOfLetter (letter : Char) (rest : List Char) : Piece :=
  match Choice.ofLetter? letter with
  | some .help => .option .help Option.none
  | some choice =>
    .option choice (match rest with
      | [] => Option.none
      | '=' :: value => some (String.ofList value)
      | value => some (String.ofList value))
  | Option.none => .unknown

/-- Take an argument apart. -/
def pieceOf (argument : String) : Piece :=
  match argument.toList with
  | ['-', '-'] => .endOfOptions
  | '-' :: '-' :: body => pieceOfName (String.ofList body)
  | '-' :: letter :: rest => pieceOfLetter letter rest
  | _ => .plain

/-- Take note of some arguments. -/
def read (a : Arguments) : List String → Except UsageFault Arguments
  | [] => .ok a
  | argument :: rest =>
    match pieceOf argument with
    | .plain => do read (← a.setSchema argument) rest
    | .endOfOptions => rest.foldlM setSchema a
    | .unknown => .error (.unknownOption argument)
    | .option choice (some value) => do
      if choice.hasValue then read (← a.setValue argument value choice) rest
      else .error (.valueRefused argument)
    | .option choice Option.none =>
      if choice.hasValue then
        match rest with
        | [] => .error (.valueMissing argument)
        | value :: rest =>
          if pieceOf value = .plain then do read (← a.setValue argument value choice) rest
          else .error (.valueMissing argument)
      else do read (← a.setFlag argument choice) rest

/-- What some arguments ask for, and the schema. -/
def parse (arguments : List String) : Except UsageFault (Arguments × String) := do
  let a ← read none arguments
  match a.schema with
  | some schema => return (a, schema)
  | Option.none => .error .schemaMissing

end Arguments

end ShapeGraph
