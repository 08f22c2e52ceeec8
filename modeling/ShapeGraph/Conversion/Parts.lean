import ShapeGraph.Conversion.Progress
import ShapeGraph.Conversion.Schema

/-!
# The parts of a schema

The nodes for what single keywords of a schema say.

## Main definitions

* `Converter` — how the schemas inside a schema are converted.
* `Conversion.convertEnum` — the node of an `enum`.
* `Conversion.convertCases` — the nodes of the schemas under a combinator.
* `Conversion.convertObject`, `Conversion.convertArray` — the nodes of an object and an array type.
* `Conversion.convertTypes` — the node for what the `type` field names.

## Implementation notes

Each function that meets schemas inside the one at hand takes the conversion of those as an argument.
What contributes members to a union or intersection gives the set of them, which is empty where the
schema says nothing.

The union that stands for an object type is bound to its path before the schemas inside it are
converted, so that a reference back to it finds its node.
-/

set_option autoImplicit false

namespace ShapeGraph

/-- How the schema at a place is converted, given names for it. -/
abbrev Converter (σ : Type) : Type := Place → Names → Conversion σ NodeId

namespace Conversion

variable {σ : Type}

/-! ## Nodes -/

/-- The node of a primitive type. -/
def primitive (kind : Primitive) : Conversion σ NodeId := onGraph (·.primitive kind)

/-- A new union or intersection. -/
def declare (operation : Operation) : Conversion σ NodeId := onGraph (·.declare operation)

/-- Some members, or the node of any type if there are none. -/
def orAny (members : SortedSet NodeId) : Conversion σ (SortedSet NodeId) := do
  if members.isEmpty then return .singleton (← primitive .any) else return members

/-! ## Enums -/

/-- The node of an `enum`: of its texts, of `null`, or a union of both. -/
def convertEnum (cases : Json) (path : Reference) (attributes : Attributes) :
    Conversion σ NodeId := do
  match cases with
  | .arr items =>
    match enumCases items with
    | .error case => throw (.invalidEnum case path)
    | .ok (texts, nullable) =>
      let null ← primitive .null
      if texts.isEmpty && nullable then return null
      else
        let enum ← onGraph (·.enum texts)
        addAttributes enum attributes
        if nullable then
          let union ← declare .union
          setMembers union ((SortedSet.singleton enum).insert null)
          addAttributes union attributes
          return union
        else return enum
  | other => throw (.expectedShape .enumArray other.kind path)

/-! ## Lists of schemas -/

/-- The nodes of some schemas that stand side by side, the first of them with index `i`.  The step
that leads to each is given by its index. -/
def convertSiblings (recur : Converter σ) (place : Place) (step : Nat → PathElement)
    (hints : Names) : Nat → List Json → Conversion σ (SortedSet NodeId)
  | _, [] => return ∅
  | i, schema :: rest => do
    let t ← recur ⟨place.document, schema, place.path.push (step i)⟩ hints
    let others ← convertSiblings recur place step hints (i + 1) rest
    return others.insert t

/-- The nodes of the schemas under a combinator. -/
def convertCases (recur : Converter σ) (place : Place) (combinator : Combinator) (cases : Json)
    (hints : Names) : Conversion σ (SortedSet NodeId) :=
  match cases with
  | .arr schemas => convertSiblings recur place (.branch combinator) hints 0 schemas
  | other => throw (.expectedShape .schemaArray other.kind place.path)

/-- What `allOf` contributes: the nodes of its schemas. -/
def convertAllOf (recur : Converter σ) (place : Place) (hints : Names) :
    Conversion σ (SortedSet NodeId) :=
  match place.fragment.get? Combinator.allOf.keyword with
  | none => return ∅
  | some cases => convertCases recur place .allOf cases hints

/-- What `oneOf` or `anyOf` contributes: a union of the nodes of its schemas. -/
def convertChoice (recur : Converter σ) (place : Place) (combinator : Combinator)
    (hints : Names) : Conversion σ (SortedSet NodeId) :=
  match place.fragment.get? combinator.keyword with
  | none => return ∅
  | some cases => do
    let union ← declare .union
    let members ← convertCases recur place combinator cases hints
    setMembers union members
    return .singleton union

/-! ## Arrays -/

/-- The node of an array's items: of one schema for all of them, or a union of the schemas for each
position. -/
def convertItems (recur : Converter σ) (place : Place) (hints : Names) :
    Conversion σ NodeId := do
  let path := place.path.push (.key "items")
  match place.fragment.get? "items" with
  | none => primitive .any
  | some (.arr positions) =>
    let union ← declare .union
    let members ← convertSiblings recur ⟨place.document, place.fragment, path⟩
      (fun i => .key (toString i)) hints.singular 0 positions
    setMembers union (← orAny members)
    return union
  | some (.obj members) => recur ⟨place.document, .obj members, path⟩ hints.singular
  | some (.bool b) => recur ⟨place.document, .bool b, path⟩ hints.singular
  | some other => throw (.expectedShape .items other.kind path)

/-- The node of an array type. -/
def convertArray (recur : Converter σ) (place : Place) (hints : Names) :
    Conversion σ NodeId := do
  let items ← convertItems recur place hints
  onGraph (·.array items)

/-! ## Objects -/

/-- The properties of a class, converted in order. -/
def convertMembers (recur : Converter σ) (place : Place) (required : List String) :
    List (String × Json) → Conversion σ (List Property)
  | [] => return []
  | (name, schema) :: rest => do
    let path := place.path.pushKeys ["properties", name]
    let t ← recur ⟨place.document, schema, path⟩ (Names.inferred name).singular
    let others ← convertMembers recur place required rest
    return ⟨name, t, !required.contains name⟩ :: others

/-- What `properties` contributes: a class. -/
def convertProperties (recur : Converter σ) (place : Place) (attributes : Attributes) :
    Conversion σ (SortedSet NodeId) := do
  match place.fragment.get? "properties" with
  | none => return ∅
  | some (.obj members) =>
    let required ← ofResult (requiredNames place.fragment place.path)
    let properties ← convertMembers recur place required members
    let record ← onGraph (·.record properties)
    addAttributes record attributes
    return .singleton record
  | some other => throw (.expectedShape .object other.kind (place.path.push (.key "properties")))

/-- What `additionalProperties` contributes: a map, or, if further properties are excluded and none
are named, a class without properties. -/
def convertAdditional (recur : Converter σ) (place : Place) (hints : Names) :
    Conversion σ (SortedSet NodeId) := do
  let path := place.path.push (.key "additionalProperties")
  match place.fragment.get? "additionalProperties" with
  | none => return ∅
  | some (.bool false) =>
    if place.fragment.has "properties" then return ∅
    else return .singleton (← onGraph (·.record []))
  | some (.bool true) =>
    let any ← primitive .any
    return .singleton (← onGraph (·.map any))
  | some (.obj members) =>
    let values ← recur ⟨place.document, .obj members, path⟩ hints.singular
    return .singleton (← onGraph (·.map values))
  | some other => throw (.expectedShape .schema other.kind path)

/-- Some members, or a map of anything if there are none. -/
def orAnyMap (members : SortedSet NodeId) : Conversion σ (SortedSet NodeId) := do
  if members.isEmpty then
    let any ← primitive .any
    return .singleton (← onGraph (·.map any))
  else return members

/-- The node of an object type: a union of a class and a map, or of one of them. -/
def convertObject (recur : Converter σ) (place : Place) (attributes : Attributes) :
    Conversion σ NodeId := do
  let union ← declare .union
  bind place.path union
  let records ← convertProperties recur place attributes
  let maps ← convertAdditional recur place attributes.names
  setMembers union (← orAnyMap (records.union maps))
  addAttributes union attributes
  return union

/-! ## Types -/

/-- The primitive type of a string with a format; formats that are not known say nothing. -/
def stringKind (schema : Json) : Primitive :=
  match Attributes.textField? schema "format" with
  | some "date" => .date
  | some "time" => .time
  | some "date-time" => .dateTime
  | _ => .string

/-- The node of a type that a schema names. -/
def convertType (recur : Converter σ) (place : Place) (name : String)
    (attributes : Attributes) : Conversion σ NodeId :=
  match TypeName.ofText? name with
  | none => throw (.unknownTypeName name place.path)
  | some .object => convertObject recur place attributes
  | some .array => convertArray recur place attributes.names
  | some .boolean => primitive .bool
  | some .null => primitive .null
  | some .integer => primitive .integer
  | some .number => primitive .double
  | some .string => primitive (stringKind place.fragment)

/-- The nodes of several types that a schema names, the first of them with index `i`. -/
def convertBranches (recur : Converter σ) (place : Place) (attributes : Attributes) :
    Nat → List String → Conversion σ (SortedSet NodeId)
  | _, [] => return ∅
  | i, name :: rest => do
    let path := place.path.push (.typeBranch i)
    let t ← convertType recur ⟨place.document, place.fragment, path⟩ name attributes
    let others ← convertBranches recur place attributes (i + 1) rest
    return others.insert t

/-- The types that a schema names, or implies by naming properties. -/
def namedTypes (schema : Json) (path : Reference) : Except Failure (List String) :=
  match schema.get? "type" with
  | some field => typeNames field path
  | none =>
    if schema.has "properties" || schema.has "additionalProperties" then .ok ["object"]
    else .ok []

/-- What the type of a schema contributes: the node of a single type or a union of several. -/
def convertTypes (recur : Converter σ) (place : Place) (attributes : Attributes) :
    Conversion σ (SortedSet NodeId) := do
  match ← ofResult (namedTypes place.fragment place.path) with
  | [] => return ∅
  | [name] =>
    let path := if name = "object" then place.path.push .object else place.path
    let t ← convertType recur ⟨place.document, place.fragment, path⟩ name attributes
    return .singleton t
  | names =>
    let union ← declare .union
    let members ← convertBranches recur place attributes 0 names
    setMembers union members
    return .singleton union

end Conversion

end ShapeGraph
