import ShapeGraph.Proofs.Keywords
import ShapeGraph.Proofs.Walks

/-!
# Schemas inside a schema

A schema is converted together with the schemas inside it.  Which these are, and at which paths they
stand, can be read off the schema alone.

## Main definitions

* `Place.IsSchema`, `Place.View` — the kinds of schemas.
* `Place.typePaths` — the types that a schema declares, each with the path at which it is converted.
* `Place.Inner` — one schema stands directly inside another.
* `Json.SchemaShaped` — all fields that are read have the right shape.

## Design

Types of one schema share its fragment: the elements `typeBranch` and `object` only tell their paths
apart.  A single type other than `object` even has the path of the schema itself.
-/

set_option autoImplicit false

namespace ShapeGraph

/-! ## Shapes of fields -/

namespace Json

/-- The names of types. -/
def IsTypeName (name : String) : Prop :=
  name ∈ ["object", "array", "boolean", "null", "integer", "number", "string"]

/-- The fields of an object type have the right shape. -/
structure ObjectShaped (schema : Json) : Prop where
  /-- `properties` is an object. -/
  properties : ∀ value, schema.get? "properties" = some value → ∃ members, value = .obj members
  /-- `required` is a list of strings; it is only read next to `properties`. -/
  required : schema.has "properties" = true → schema.RequiredListed
  /-- `additionalProperties` is a schema. -/
  additional : ∀ value, schema.get? "additionalProperties" = some value →
    (∃ b, value = .bool b) ∨ ∃ members, value = .obj members

/-- The items of an array type are a schema or a list of schemas. -/
def ItemsShaped (schema : Json) : Prop :=
  ∀ value, schema.get? "items" = some value →
    (∃ b, value = .bool b) ∨ (∃ members, value = .obj members) ∨ ∃ positions, value = .arr positions

/-- All fields of a schema that are read have the right shape. -/
structure SchemaShaped (schema : Json) : Prop where
  /-- Combinators list schemas. -/
  combinators : ∀ (combinator : Combinator) cases,
    schema.get? combinator.keyword = some cases → ∃ schemas, cases = .arr schemas
  /-- The `type` field is a name or a list of names that is not empty. -/
  types_listed : schema.TypesListed
  /-- These are names of types. -/
  types_known : ∀ name ∈ schema.declaredTypes, IsTypeName name
  /-- The fields of an object type have the right shape. -/
  object : "object" ∈ schema.declaredTypes → schema.ObjectShaped
  /-- The items of an array type have the right shape. -/
  array : "array" ∈ schema.declaredTypes → schema.ItemsShaped

/-- Only objects have members. -/
theorem exists_eq_obj_of_get? {value part : Json} {key : String} (h : value.get? key = some part) :
    ∃ members, value = .obj members := by
  cases value with
  | obj members => exact ⟨members, rfl⟩
  | null | bool _ | num _ | str _ | arr _ => cases h

theorem has_eq_true_iff {value : Json} {key : String} :
    value.has key = true ↔ ∃ part, value.get? key = some part := by
  unfold has
  rw [Option.isSome_iff_exists]

theorem has_eq_false_iff {value : Json} {key : String} :
    value.has key = false ↔ value.get? key = none := by
  unfold has
  rw [Option.isSome_eq_false_iff, Option.isNone_iff_eq_none]

end Json

/-- A text is the name of a type just in case it is read as one. -/
theorem TypeName.ofText?_eq_none_iff {name : String} :
    TypeName.ofText? name = none ↔ ¬ Json.IsTypeName name := by
  unfold Json.IsTypeName
  constructor
  · intro h hname
    simp only [List.mem_cons, List.not_mem_nil, or_false] at hname
    rcases hname with rfl | rfl | rfl | rfl | rfl | rfl | rfl <;> cases h
  · intro h
    unfold TypeName.ofText?
    split <;> simp_all

/-- Only `object` is read as the object type. -/
theorem TypeName.ofText?_eq_object {name : String} (h : TypeName.ofText? name = some .object) :
    name = "object" := by
  unfold TypeName.ofText? at h
  split at h <;> first | rfl | cases h

/-- Only `array` is read as the array type. -/
theorem TypeName.ofText?_eq_array {name : String} (h : TypeName.ofText? name = some .array) :
    name = "array" := by
  unfold TypeName.ofText? at h
  split at h <;> first | rfl | cases h

namespace Place

/-! ## Paths of types -/

/-- The fragment is a schema that is neither reference nor enum. -/
structure IsSchema (place : Place) : Prop where
  isObject : ∃ members, place.fragment = .obj members
  no_reference : place.fragment.get? "$ref" = none
  no_enum : place.fragment.get? "enum" = none

/-- What a fragment is as a schema. -/
inductive View (place : Place) : Prop
  /-- A boolean. -/
  | bool (b : Bool) (fragment_eq : place.fragment = .bool b)
  /-- A reference. -/
  | reference (value : Json) (value_eq : place.fragment.get? "$ref" = some value)
  /-- An enum. -/
  | enum (cases : Json) (no_reference : place.fragment.get? "$ref" = none)
      (cases_eq : place.fragment.get? "enum" = some cases)
  /-- Any other schema. -/
  | schema (is_schema : place.IsSchema)
  /-- No schema at all. -/
  | none (not_bool : ∀ b, place.fragment ≠ .bool b)
    (not_obj : ∀ members, place.fragment ≠ .obj members)

theorem view (place : Place) : place.View := by
  cases hfragment : place.fragment with
  | bool b => exact .bool b hfragment
  | obj members =>
    cases href : place.fragment.get? "$ref" with
    | some value => exact .reference value href
    | none =>
      cases henum : place.fragment.get? "enum" with
      | some cases => exact .enum cases href henum
      | none => exact .schema ⟨⟨members, hfragment⟩, href, henum⟩
  | null | num _ | str _ | arr _ => exact .none (by simp [hfragment]) (by simp [hfragment])

/-- The path of a type that is the only one. -/
def onlyTypePath (place : Place) (name : String) : Reference :=
  if name = "object" then place.path.push .object else place.path

/-- The paths of several types, the first of which has index `i`. -/
def branchPaths (place : Place) : Nat → List String → List (String × Reference)
  | _, [] => []
  | i, name :: rest => (name, place.path.push (.typeBranch i)) :: branchPaths place (i + 1) rest

/-- The types that a schema declares, each with the path at which it is converted. -/
def typePaths (place : Place) : List (String × Reference) :=
  match place.fragment.declaredTypes with
  | [name] => [(name, place.onlyTypePath name)]
  | names => place.branchPaths 0 names

theorem mem_branchPaths {place : Place} {i : Nat} {names : List String} {name : String}
    {path : Reference} (h : (name, path) ∈ place.branchPaths i names) :
    name ∈ names ∧ ∃ k, k < names.length ∧ path = place.path.push (.typeBranch (i + k)) := by
  induction names generalizing i with
  | nil => cases h
  | cons first rest ih =>
    rcases List.mem_cons.1 h with heq | h
    · cases heq
      exact ⟨List.mem_cons_self, 0, by simp, rfl⟩
    · obtain ⟨hname, k, hk, hpath⟩ := ih h
      refine ⟨List.mem_cons_of_mem _ hname, k + 1, by simpa using hk, ?_⟩
      rw [hpath]
      congr 2
      omega

/-- Several types, or none, are declared by listing them. -/
theorem exists_entries_of_declaredTypes {schema : Json}
    (hseveral : ∀ name, schema.declaredTypes ≠ [name]) {k : Nat}
    (hk : k < schema.declaredTypes.length) :
    ∃ entries, schema.get? "type" = some (.arr entries) ∧ k < entries.length := by
  have hnames : schema.declaredTypes = schema.declaredTypes := rfl
  conv at hnames => rhs; unfold Json.declaredTypes
  split at hnames
  · next name _ => exact absurd hnames (hseveral name)
  · next entries htype =>
    rw [hnames] at hk
    exact ⟨entries, htype, Nat.lt_of_lt_of_le hk (Json.length_texts_le entries)⟩
  · rw [hnames] at hk
    cases hk
  · split at hnames
    · exact absurd hnames (hseveral "object")
    · rw [hnames] at hk
      cases hk

/-- The path of a type is the schema's own or one step further, by an element that does not move. -/
theorem mem_typePaths {place : Place} {name : String} {path : Reference}
    (h : (name, path) ∈ place.typePaths) :
    name ∈ place.fragment.declaredTypes ∧
      (path = place.path ∨ path = place.path.push .object ∨
        ∃ entries i, place.fragment.get? "type" = some (.arr entries) ∧ i < entries.length ∧
          path = place.path.push (.typeBranch i)) := by
  unfold typePaths at h
  split at h
  · next only honly =>
    rw [List.mem_singleton] at h
    cases h
    refine ⟨by rw [honly]; exact List.mem_cons_self, ?_⟩
    unfold onlyTypePath
    split
    · exact Or.inr (Or.inl rfl)
    · exact Or.inl rfl
  · next names hseveral =>
    obtain ⟨hname, k, hk, hpath⟩ := mem_branchPaths h
    obtain ⟨entries, htype, hlt⟩ := exists_entries_of_declaredTypes hseveral hk
    exact ⟨hname, Or.inr (Or.inr ⟨entries, k, htype, hlt, by simpa using hpath⟩)⟩

theorem exists_mem_branchPaths {place : Place} (i : Nat) {names : List String} {name : String}
    (h : name ∈ names) : ∃ path, (name, path) ∈ place.branchPaths i names := by
  induction names generalizing i with
  | nil => cases h
  | cons first rest ih =>
    rcases List.mem_cons.1 h with rfl | h
    · exact ⟨_, List.mem_cons_self⟩
    · obtain ⟨path, hpath⟩ := ih (i + 1) h
      exact ⟨path, List.mem_cons_of_mem _ hpath⟩

/-- Each type that a schema declares has a path. -/
theorem exists_mem_typePaths (place : Place) {name : String}
    (h : name ∈ place.fragment.declaredTypes) : ∃ path, (name, path) ∈ place.typePaths := by
  unfold typePaths
  split
  · next only honly =>
    rw [honly, List.mem_singleton] at h
    subst h
    exact ⟨_, List.mem_singleton.2 rfl⟩
  · exact exists_mem_branchPaths 0 h

theorem typePaths_eq_of_singleton {place : Place} {name : String}
    (h : place.fragment.declaredTypes = [name]) :
    place.typePaths = [(name, place.onlyTypePath name)] := by
  unfold typePaths
  rw [h]

theorem typePaths_eq_of_not_singleton {place : Place}
    (h : ∀ name, place.fragment.declaredTypes ≠ [name]) :
    place.typePaths = place.branchPaths 0 place.fragment.declaredTypes := by
  unfold typePaths
  split
  · next name hname => exact absurd hname (h name)
  · rfl

/-- The path of an object type leads nowhere in the text. -/
theorem not_isAddressable_of_object {place : Place} {path : Reference}
    (hobject : ("object", path) ∈ place.typePaths) : ¬ path.IsAddressable := by
  unfold typePaths at hobject
  split at hobject
  · cases List.mem_singleton.1 hobject
    exact fun h => absurd (Reference.isAddressable_push.1 h) nofun
  · obtain ⟨-, k, -, rfl⟩ := mem_branchPaths hobject
    exact fun h => absurd (Reference.isAddressable_push.1 h) nofun

/-! ## Inner schemas -/

/-- One schema stands directly inside another. -/
inductive Inner (place : Place) : Place → Prop
  /-- Under a combinator. -/
  | branch {combinator : Combinator} {schemas : List Json} {i : Nat} {schema : Json}
      (cases_eq : place.fragment.get? combinator.keyword = some (.arr schemas))
      (schema_eq : schemas[i]? = some schema) :
      Inner place ⟨place.document, schema, place.path.push (.branch combinator i)⟩
  /-- A property of an object type. -/
  | property {path : Reference} {members : List (String × Json)} {name : String} {schema : Json}
      (is_object : ("object", path) ∈ place.typePaths)
      (members_eq : place.fragment.get? "properties" = some (.obj members))
      (mem : (name, schema) ∈ members) :
      Inner place ⟨place.document, schema, path.pushKeys ["properties", name]⟩
  /-- The further properties of an object type. -/
  | additional {path : Reference} {members : List (String × Json)}
      (is_object : ("object", path) ∈ place.typePaths)
      (schema_eq : place.fragment.get? "additionalProperties" = some (.obj members)) :
      Inner place ⟨place.document, .obj members, path.push (.key "additionalProperties")⟩
  /-- The items of an array type, all of one schema. -/
  | items {path : Reference} {schema : Json} (is_array : ("array", path) ∈ place.typePaths)
      (schema_eq : place.fragment.get? "items" = some schema)
      (is_schema : (∃ b, schema = .bool b) ∨ ∃ members, schema = .obj members) :
      Inner place ⟨place.document, schema, path.push (.key "items")⟩
  /-- One position of an array type. -/
  | position {path : Reference} {positions : List Json} {i : Nat} {schema : Json}
      (is_array : ("array", path) ∈ place.typePaths)
      (positions_eq : place.fragment.get? "items" = some (.arr positions))
      (schema_eq : positions[i]? = some schema) :
      Inner place
        ⟨place.document, schema, (path.push (.key "items")).push (.key (toString i))⟩

/-- The path of an inner schema leads somewhere in the text. -/
theorem Inner.isAddressable {place inner : Place} (h : place.Inner inner) :
    inner.path.IsAddressable := by
  cases h with
  | branch | additional | items | position => exact Reference.isAddressable_push.2 rfl
  | property =>
    rw [Reference.pushKeys_pair]
    exact Reference.isAddressable_push.2 rfl

end Place

end ShapeGraph
