import ShapeGraph.Json.Number

/-!
# JSON values

Schemas and documents are JSON values.  The members of an object keep the order in which they are
written, because classes list their properties in that order.

## Main definitions

* `Json` — a JSON value.
* `Json.Kind` — the six kinds of values, with their names.
* `Json.get?`, `Json.text?`, `Json.members?`, `Json.items?` — what a value of the right kind holds.

## Implementation notes

Looking up a key finds the first member of that name.  Reading a text never yields an object in which
a name occurs twice.
-/

set_option autoImplicit false

namespace ShapeGraph

/-- A JSON value. -/
inductive Json where
  | null
  | bool (value : Bool)
  | num (value : Number)
  | str (text : String)
  | arr (items : List Json)
  | obj (members : List (String × Json))
deriving Inhabited

namespace Json

/-- The kinds of JSON values. -/
inductive Kind where
  | null
  | boolean
  | number
  | string
  | array
  | object
deriving DecidableEq, Inhabited

/-- The name of a kind. -/
def Kind.name : Kind → String
  | .null => "null"
  | .boolean => "boolean"
  | .number => "number"
  | .string => "string"
  | .array => "array"
  | .object => "object"

/-- The kind of a value. -/
def kind : Json → Kind
  | .null => .null
  | .bool _ => .boolean
  | .num _ => .number
  | .str _ => .string
  | .arr _ => .array
  | .obj _ => .object

/-- The member of an object under a key. -/
def get? (key : String) : Json → Option Json
  | .obj members => members.lookup key
  | _ => none

/-- Whether the value is an object with a member under a key. -/
def has (key : String) (value : Json) : Bool := (value.get? key).isSome

/-- The text of a string. -/
def text? : Json → Option String
  | .str text => some text
  | _ => none

/-- The members of an object, in order. -/
def members? : Json → Option (List (String × Json))
  | .obj members => some members
  | _ => none

/-- The items of an array. -/
def items? : Json → Option (List Json)
  | .arr items => some items
  | _ => none

/-- Whether the value is an object. -/
def isObject (value : Json) : Bool := value.members?.isSome

/-- Set the value of a key among members: at its old place if the key is there, else at the end. -/
def setMember (key : String) (value : Json) : List (String × Json) → List (String × Json)
  | [] => [(key, value)]
  | (k, v) :: rest => if k = key then (k, value) :: rest else (k, v) :: setMember key value rest

end Json

end ShapeGraph
