import ShapeGraph.Failure

/-!
# Keywords of a schema

What the keywords of a single schema say, as far as it can be read off without converting the schemas
inside it.

## Main definitions

* `TypeName` — the names that a `type` field may list.
* `typeNames` — the names that it does list.
* `requiredNames` — the properties that must be present.
* `enumCases` — the texts of an enum, and whether `null` is among its cases.
-/

set_option autoImplicit false

namespace ShapeGraph

/-- The names that a `type` field may list. -/
inductive TypeName where
  | object
  | array
  | boolean
  | null
  | integer
  | number
  | string
deriving DecidableEq, Inhabited

/-- The type name that a text is. -/
def TypeName.ofText? : String → Option TypeName
  | "object" => some .object
  | "array" => some .array
  | "boolean" => some .boolean
  | "null" => some .null
  | "integer" => some .integer
  | "number" => some .number
  | "string" => some .string
  | _ => none

/-- A list with one more element at its end, unless the list has it already. -/
def appendNew {α : Type} [DecidableEq α] (l : List α) (a : α) : List α :=
  if a ∈ l then l else l ++ [a]

/-- The texts in a list without repetition, or the kind of the first entry that is none. -/
def distinctTexts : List Json → Except Json.Kind (List String)
  | entries => entries.foldlM (fun texts entry =>
      match entry with
      | .str s => .ok (appendNew texts s)
      | other => .error other.kind) []

/-- The names that a `type` field lists, without repetition. -/
def typeNames (field : Json) (place : Reference) : Except Failure (List String) :=
  match field with
  | .str name => .ok [name]
  | .arr [] => .error (.invalidType place .emptyList)
  | .arr entries =>
    match distinctTexts entries with
    | .ok names => .ok names
    | .error kind => .error (.invalidType place (.entry kind))
  | other => .error (.invalidType place (.field other.kind))

/-- The properties that a schema's `required` field lists; none if there is no such field. -/
def requiredNames (schema : Json) (place : Reference) : Except Failure (List String) :=
  match schema.get? "required" with
  | none => .ok []
  | some (.arr entries) =>
    match distinctTexts entries with
    | .ok names => .ok names
    | .error kind => .error (.invalidRequired place (.entry kind))
  | some other => .error (.invalidRequired place (.field other.kind))

/-- The texts among the cases of an enum without repetition, and whether `null` is a case.  Fails
with the first case that is neither. -/
def enumCases (cases : List Json) : Except Json (List String × Bool) :=
  cases.foldlM (fun (texts, nullable) case =>
    match case with
    | .null => .ok (texts, true)
    | .str s => .ok (appendNew texts s, nullable)
    | other => .error other) ([], false)

end ShapeGraph
