import ShapeGraph.Json.Printer
import ShapeGraph.Reference.Basic

/-!
# Failures

All the ways in which reading a schema, following a reference or loading a document can fail.

## Main definitions

* `Failure` — the causes, with the place at which each was found.
* `Failure.message` — their wording.

## Implementation notes

The last three causes are faults of logic rather than of a schema: they name an operation that was
asked of something it does not apply to.
-/

set_option autoImplicit false

namespace ShapeGraph

/-- What stopped a walk to the target of a reference. -/
inductive Obstacle where
  /-- An array at the place has no item of this index. -/
  | indexOutOfBounds (index : Nat) (place : Reference)
  /-- An object at the place has no member of this name. -/
  | keyNotFound (key : String) (place : Reference)
  /-- The value at the place is neither object nor array. -/
  | noContainer (kind : Json.Kind) (place : Reference)
  /-- The targets of a run of references lead back to one of them. -/
  | cycle (hops : List Reference)

/-- What a `type` field has wrong. -/
inductive TypeFault where
  /-- It lists no type. -/
  | emptyList
  /-- An entry of its list is no string. -/
  | entry (kind : Json.Kind)
  /-- It is neither string nor list. -/
  | field (kind : Json.Kind)

/-- What a `required` field has wrong. -/
inductive RequiredFault where
  /-- It is no list. -/
  | field (kind : Json.Kind)
  /-- An entry of its list is no string. -/
  | entry (kind : Json.Kind)

/-- The shape that a part of a schema must have. -/
inductive Expected where
  | schema
  | enumArray
  | schemaArray
  | object
  | items

/-- Why a file's text is no schema document. -/
inductive DocumentFault where
  /-- It is no JSON text. -/
  | malformed
  /-- It is neither object nor boolean. -/
  | wrongKind (kind : Json.Kind)

/-- Why a file could not be read or written. -/
inductive FileFault where
  | notFound
  | isDirectory
  | notDirectory
  | nameTooLong
  | nulInPath
  | notText
deriving DecidableEq

/-- A cause of failure. -/
inductive Failure where
  /-- The value of `$ref` is no string. -/
  | refNotString (place : Reference)
  /-- The target of a reference cannot be reached. -/
  | unresolved (target : Reference) (obstacle : Obstacle)
  /-- There is no definition of this name. -/
  | missingDefinition (name : String) (place : Reference)
  /-- The key of an array's item is no index. -/
  | invalidIndex (key : String) (place : Reference)
  /-- A step of a reference leads nowhere in the text of a schema. -/
  | unaddressable (target : Reference) (element : PathElement)
  /-- A `type` field is malformed. -/
  | invalidType (place : Reference) (fault : TypeFault)
  /-- A `type` field names no type. -/
  | unknownTypeName (name : String) (place : Reference)
  /-- A case of an `enum` is neither string nor null. -/
  | invalidEnum (case : Json) (place : Reference)
  /-- A `required` field is malformed. -/
  | invalidRequired (place : Reference) (fault : RequiredFault)
  /-- A part of a schema has the wrong shape. -/
  | expectedShape (expected : Expected) (found : Json.Kind) (place : Reference)
  /-- A path already stands for another type. -/
  | conflictingBinding (place : Reference)
  /-- Schemas are nested too deep. -/
  | depthExceeded (limit : Nat) (place : Reference)
  /-- There is no document at this address. -/
  | documentNotFound (address : String)
  /-- What stands at this address is no schema document. -/
  | invalidDocument (address : String) (fault : DocumentFault)
  /-- A file could not be read. -/
  | unreadable (fault : FileFault)
  /-- A name was asked of a reference that leads nowhere in the text of a schema. -/
  | nameless (reference : Reference)
  /-- Members were given to a node that is no union or intersection. -/
  | notASet (node : Nat) (label : String)

/-- The wording of an obstacle. -/
def Obstacle.message : Obstacle → String
  | .indexOutOfBounds i place => "index " ++ toString i ++ " out of bounds at " ++ place.render
  | .keyNotFound key place => "key '" ++ key ++ "' not found at " ++ place.render
  | .noContainer kind place => "cannot index into " ++ kind.name ++ " at " ++ place.render
  | .cycle hops => "$ref cycle " ++ " -> ".intercalate (hops.map Reference.render)

/-- The wording of a fault in a `type` field. -/
def TypeFault.message : TypeFault → String
  | .emptyList => "empty type list"
  | .entry kind => "type list entry is " ++ kind.name ++ ", not a string"
  | .field kind => "expected string or array, found " ++ kind.name

/-- The wording of a fault in a `required` field. -/
def RequiredFault.message : RequiredFault → String
  | .field kind => "expected array, found " ++ kind.name
  | .entry kind => "entry is " ++ kind.name ++ ", not a string"

/-- The words for an expected shape. -/
def Expected.message : Expected → String
  | .schema => "schema object or boolean"
  | .enumArray => "enum array"
  | .schemaArray => "array of schemas"
  | .object => "object"
  | .items => "schema object, boolean or array"

/-- The wording of a fault in a document. -/
def DocumentFault.message : DocumentFault → String
  | .malformed => "<json>"
  | .wrongKind kind => "expected an object or boolean schema, found " ++ kind.name

/-- The system's wording of a fault with a file. -/
def FileFault.message : FileFault → String
  | .notFound => "No such file or directory (os error 2)"
  | .isDirectory => "Is a directory (os error 21)"
  | .notDirectory => "Not a directory (os error 20)"
  | .nameTooLong => "File name too long (os error 36)"
  | .nulInPath => "file name contained an unexpected NUL byte"
  | .notText => "stream did not contain valid UTF-8"

/-- The wording of a failure. -/
def Failure.message : Failure → String
  | .refNotString place => "$ref at " ++ place.render ++ " is not a string"
  | .unresolved target obstacle => "Cannot resolve " ++ target.render ++ ": " ++ obstacle.message
  | .missingDefinition name place => "Definition '" ++ name ++ "' not found at " ++ place.render
  | .invalidIndex key place => "Invalid array index '" ++ key ++ "' at " ++ place.render
  | .unaddressable target element =>
    "Path element '" ++ element.render ++ "' in " ++ target.render ++ " cannot address schema text"
  | .invalidType place fault => "Invalid type field at " ++ place.render ++ ": " ++ fault.message
  | .unknownTypeName name place => "Unknown type name '" ++ name ++ "' at " ++ place.render
  | .invalidEnum case place =>
    "Enum case at " ++ place.render ++ " is not a string: " ++ case.compact
  | .invalidRequired place fault =>
    "Invalid required field at " ++ place.render ++ ": " ++ fault.message
  | .expectedShape expected found place =>
    "Expected " ++ expected.message ++ " at " ++ place.render ++ ", found " ++ found.name
  | .conflictingBinding place =>
    "Path " ++ place.render ++ " is already bound to a different type"
  | .depthExceeded limit place =>
    "Recursion limit of " ++ toString limit ++ " exceeded at " ++ place.render
  | .documentNotFound address => "Document not found: " ++ address
  | .invalidDocument address fault => "Invalid document " ++ address ++ ": " ++ fault.message
  | .unreadable fault => "IO error: " ++ fault.message
  | .nameless reference =>
    "name requested through non-addressable element in " ++ reference.render
  | .notASet node label =>
    "t" ++ toString node ++ " is a " ++ label ++ ", not a union or intersection"

end ShapeGraph
