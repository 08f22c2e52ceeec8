import Mathlib.Data.List.Forall2
import ShapeGraph.Proofs.Corpus
import ShapeGraph.Proofs.Growth
import ShapeGraph.Proofs.Membership

/-!
# Names for nodes that do not depend on their numbers

Which number a node gets depends on what has been converted before it.  What it stands for does not: a
union or intersection is made for one part of the schema at one path, and any other node is known by
its shape, with the keys of its parts in place of their numbers.  The documents alone tell which key
the schema at a path has, and which keys the members of a union or intersection have.

## Main definitions

* `Part` — what a union or intersection of a schema is made for.
* `Key` — a name for a node.
* `Collects` — a set of nodes has exactly the keys that satisfy a condition.
* `Corpus.KeyOf`, `Corpus.PathKey` — the key of the schema at a place, and at a path.
* `Corpus.MemberKey` — the keys of the members of a union or intersection.
* `Corpus.Suits` — a node of some shape may go by some key, given the keys of its parts.

## Main results

* `Corpus.KeyOf.unique`, `Corpus.TypeKey.unique`, … — keys are determined by the documents.
* `Corpus.Suits.shape_unique`, `Corpus.Suits.key_unique` — apart from unions and intersections, a shape
  has one key and a key one shape.

## Design

A schema that is a reference has the key of its target, so paths that stand for the same node have the
same key.  A run of references that does not end has none.
-/

set_option autoImplicit false

namespace ShapeGraph

/-! ## Keys -/

/-- What a union or intersection of a schema is made for. -/
inductive Part where
  /-- The schema as a whole. -/
  | whole
  /-- What stands under `oneOf` or `anyOf`. -/
  | choice (combinator : Combinator)
  /-- Several types. -/
  | types
  /-- The object type that is converted at a path. -/
  | object (path : Reference)
  /-- The positions of the array type that is converted at a path. -/
  | positions (path : Reference)
  /-- The texts of an enum together with `null`. -/
  | nullable

/-- Only a schema as a whole is an intersection. -/
def Part.operation : Part → Operation
  | .whole => .intersection
  | _ => .union

/-- A name for a node that does not depend on its number. -/
inductive Key where
  | primitive (kind : Primitive)
  | enum (texts : List String)
  | array (items : Key)
  | map (values : Key)
  /-- A class: for each property its name, the key of its type and whether it may be absent. -/
  | record (properties : List (String × Key × Bool))
  /-- A union or intersection, by the path of its schema and what it is made for. -/
  | part (base : Reference) (part : Part)

/-- What satisfies the condition, or something else if nothing does. -/
def OrElse (condition : Key → Prop) (other key : Key) : Prop :=
  condition key ∨ key = other ∧ ∀ k, ¬ condition k

/-! ## Sets of nodes and their keys -/

/-- The nodes have exactly the keys that satisfy the condition. -/
def Collects (key : NodeId → Option Key) (members : SortedSet NodeId) (condition : Key → Prop) :
    Prop :=
  (∀ u ∈ members, ∃ k, key u = some k ∧ condition k) ∧
    ∀ k, condition k → ∃ u ∈ members, key u = some k

namespace Collects

variable {key key' : NodeId → Option Key} {members others : SortedSet NodeId}
  {condition condition' : Key → Prop}

theorem congr (h : Collects key members condition) (hcondition : ∀ k, condition' k ↔ condition k) :
    Collects key members condition' := by
  rwa [show condition' = condition from funext fun k => propext (hcondition k)]

/-- Further keys change nothing. -/
theorem mono (h : Collects key members condition) (hkey : ∀ t k, key t = some k → key' t = some k) :
    Collects key' members condition := by
  refine ⟨fun u hu => ?_, fun k hk => ?_⟩
  · obtain ⟨k, hk, hcondition⟩ := h.1 u hu
    exact ⟨k, hkey u k hk, hcondition⟩
  · obtain ⟨u, hu, huk⟩ := h.2 k hk
    exact ⟨u, hu, hkey u k huk⟩

theorem empty (hcondition : ∀ k, ¬ condition k) : Collects key ∅ condition :=
  ⟨fun u hu => absurd hu (SortedSet.not_mem_empty u), fun k hk => absurd hk (hcondition k)⟩

/-- A single node has its own key only. -/
theorem singleton {t : NodeId} {k : Key} (ht : key t = some k) (hk : condition k)
    (hunique : ∀ other, condition other → other = k) :
    Collects key (SortedSet.singleton t) condition := by
  refine ⟨fun u hu => ?_, fun other hother => ?_⟩
  · rw [SortedSet.mem_singleton.1 hu]
    exact ⟨k, ht, hk⟩
  · rw [hunique other hother]
    exact ⟨t, SortedSet.mem_singleton.2 rfl, ht⟩

theorem insert (h : Collects key members condition) {t : NodeId} {k : Key} (ht : key t = some k) :
    Collects key (members.insert t) fun other => other = k ∨ condition other := by
  refine ⟨fun u hu => ?_, fun other hother => ?_⟩
  · rcases SortedSet.mem_insert.1 hu with rfl | hu
    · exact ⟨k, ht, Or.inl rfl⟩
    · obtain ⟨other, hother, hcondition⟩ := h.1 u hu
      exact ⟨other, hother, Or.inr hcondition⟩
  · rcases hother with rfl | hother
    · exact ⟨t, SortedSet.mem_insert.2 (Or.inl rfl), ht⟩
    · obtain ⟨u, hu, huk⟩ := h.2 other hother
      exact ⟨u, SortedSet.mem_insert.2 (Or.inr hu), huk⟩

theorem union (h : Collects key members condition) (h' : Collects key others condition') :
    Collects key (members.union others) fun k => condition k ∨ condition' k := by
  refine ⟨fun u hu => ?_, fun k hk => ?_⟩
  · rcases SortedSet.mem_union.1 hu with hu | hu
    · exact (h.1 u hu).imp fun k hk => ⟨hk.1, Or.inl hk.2⟩
    · exact (h'.1 u hu).imp fun k hk => ⟨hk.1, Or.inr hk.2⟩
  · rcases hk with hk | hk
    · obtain ⟨u, hu, huk⟩ := h.2 k hk
      exact ⟨u, SortedSet.mem_union.2 (Or.inl hu), huk⟩
    · obtain ⟨u, hu, huk⟩ := h'.2 k hk
      exact ⟨u, SortedSet.mem_union.2 (Or.inr hu), huk⟩

/-- Nodes that there are satisfy the condition, and nothing need take their place. -/
theorem orElse (h : Collects key members condition) (hmembers : ¬ members.isEmpty = true)
    (other : Key) : Collects key members (OrElse condition other) := by
  refine h.congr fun k => ⟨?_, Or.inl⟩
  rintro (hk | ⟨-, hnone⟩)
  · exact hk
  · refine absurd (SortedSet.isEmpty_iff.2 fun u hu => ?_) hmembers
    obtain ⟨k, -, hk⟩ := h.1 u hu
    exact hnone k hk

/-- Where there are no nodes, nothing satisfies the condition, and a single one takes their place. -/
theorem orElse_singleton (h : Collects key members condition) (hmembers : members.isEmpty = true)
    {t : NodeId} {other : Key} (ht : key' t = some other) :
    Collects key' (SortedSet.singleton t) (OrElse condition other) := by
  have hnone : ∀ k, ¬ condition k := by
    intro k hk
    obtain ⟨u, hu, -⟩ := h.2 k hk
    exact SortedSet.isEmpty_iff.1 hmembers u hu
  refine .singleton ht (Or.inr ⟨rfl, hnone⟩) ?_
  rintro k (hk | ⟨rfl, -⟩)
  · exact absurd hk (hnone k)
  · rfl

end Collects

namespace Corpus

variable {c : Corpus}

/-! ## Keys of schemas -/

/-- The key of an enum with some texts and perhaps `null`. -/
def enumKey (path : Reference) (texts : List String) (nullable : Bool) : Key :=
  if texts.isEmpty && nullable then .primitive .null
  else if nullable then .part path .nullable
  else .enum texts

/-- The key of the schema at a place. -/
inductive KeyOf (c : Corpus) : Place → Key → Prop
  | bool {place : Place} {b : Bool} (fragment_eq : place.fragment = .bool b) :
      KeyOf c place (.primitive .any)
  | reference {place found : Place} {key : Key} (leads : c.Leads place found)
      (key_of : KeyOf c found key) : KeyOf c place key
  | enum {place : Place} {items : List Json} {texts : List String} {nullable : Bool}
      (no_reference : place.fragment.get? "$ref" = none)
      (cases_eq : place.fragment.get? "enum" = some (.arr items))
      (texts_eq : enumCases items = .ok (texts, nullable)) :
      KeyOf c place (enumKey place.path texts nullable)
  | schema {place : Place} (is_schema : place.IsSchema) : KeyOf c place (.part place.path .whole)

/-- A schema that is no reference leads nowhere. -/
theorem not_leads {place found : Place} (h : place.fragment.get? "$ref" = none) :
    ¬ c.Leads place found := by
  rintro ⟨value, hvalue, -⟩
  rw [h] at hvalue
  cases hvalue

namespace KeyOf

variable {place : Place} {key : Key}

theorem eq_of_bool {b : Bool} (hb : place.fragment = .bool b) (h : c.KeyOf place key) :
    key = .primitive .any := by
  cases h with
  | bool _ => rfl
  | reference hleads _ => exact absurd hleads (not_leads (by rw [hb]; rfl))
  | enum _ hcases _ =>
    rw [hb] at hcases
    cases hcases
  | schema hschema =>
    obtain ⟨members, hmembers⟩ := hschema.isObject
    rw [hb] at hmembers
    cases hmembers

theorem of_leads {found : Place} (hleads : c.Leads place found) (h : c.KeyOf place key) :
    c.KeyOf found key := by
  cases h with
  | bool hb => exact absurd hleads (not_leads (by rw [hb]; rfl))
  | reference hleads' hfound =>
    obtain rfl := hleads.unique hleads'
    exact hfound
  | enum href _ _ => exact absurd hleads (not_leads href)
  | schema hschema => exact absurd hleads (not_leads hschema.no_reference)

theorem eq_of_enum {items : List Json} {texts : List String} {nullable : Bool}
    (href : place.fragment.get? "$ref" = none)
    (hcases : place.fragment.get? "enum" = some (.arr items))
    (htexts : enumCases items = .ok (texts, nullable)) (h : c.KeyOf place key) :
    key = enumKey place.path texts nullable := by
  cases h with
  | bool hb =>
    rw [hb] at hcases
    cases hcases
  | reference hleads _ => exact absurd hleads (not_leads href)
  | enum _ hcases' htexts' =>
    rw [hcases] at hcases'
    cases hcases'
    rw [htexts] at htexts'
    cases htexts'
    rfl
  | schema hschema =>
    rw [hschema.no_enum] at hcases
    cases hcases

theorem eq_of_isSchema (hschema : place.IsSchema) (h : c.KeyOf place key) :
    key = .part place.path .whole := by
  cases h with
  | bool hb =>
    obtain ⟨members, hmembers⟩ := hschema.isObject
    rw [hb] at hmembers
    cases hmembers
  | reference hleads _ => exact absurd hleads (not_leads hschema.no_reference)
  | enum _ hcases _ =>
    rw [hschema.no_enum] at hcases
    cases hcases
  | schema _ => rfl

/-- The schema at a place has at most one key.  A reference leads to one place only, and each other
kind of schema tells its key. -/
theorem unique {other : Key} (h : c.KeyOf place key) (hother : c.KeyOf place other) :
    other = key := by
  induction h with
  | bool hb => exact hother.eq_of_bool hb
  | reference hleads _ ih => exact ih (hother.of_leads hleads)
  | enum href hcases htexts => exact hother.eq_of_enum href hcases htexts
  | schema hschema => exact hother.eq_of_isSchema hschema

end KeyOf

/-- The key of the schema at a path. -/
def PathKey (c : Corpus) (path : Reference) (key : Key) : Prop :=
  ∃ place, c.place? path = some place ∧ c.KeyOf place key

theorem PathKey.unique {path : Reference} {key other : Key} (h : c.PathKey path key)
    (hother : c.PathKey path other) : other = key := by
  obtain ⟨place, hplace, hkey⟩ := h
  obtain ⟨same, hsame, hkey'⟩ := hother
  rw [hplace] at hsame
  cases hsame
  exact hkey.unique hkey'

theorem Located.pathKey {place : Place} (hplace : c.Located place) {key : Key}
    (h : c.KeyOf place key) : c.PathKey place.path key :=
  ⟨place, located_iff.1 hplace, h⟩

/-! ## Keys of the parts of a schema -/

variable {place : Place}

/-- The keys of the schemas under a combinator. -/
def BranchKey (c : Corpus) (place : Place) (combinator : Combinator) (key : Key) : Prop :=
  ∃ schemas i, place.fragment.get? combinator.keyword = some (.arr schemas) ∧ i < schemas.length ∧
    c.PathKey (place.path.push (.branch combinator i)) key

/-- The key of what `oneOf` or `anyOf` contributes. -/
def ChoiceKey (place : Place) (combinator : Combinator) (key : Key) : Prop :=
  place.fragment.has combinator.keyword = true ∧ key = .part place.path (.choice combinator)

/-- The keys of the schemas for each position of an array type. -/
def PositionKey (c : Corpus) (place : Place) (path : Reference) (key : Key) : Prop :=
  ∃ positions i, place.fragment.get? "items" = some (.arr positions) ∧ i < positions.length ∧
    c.PathKey ((path.push (.key "items")).push (.key (toString i))) key

/-- The key of an array type's items. -/
def ItemsKey (c : Corpus) (place : Place) (path : Reference) (key : Key) : Prop :=
  match place.fragment.get? "items" with
  | none => key = .primitive .any
  | some (.arr _) => key = .part place.path (.positions path)
  | some (.obj _) | some (.bool _) => c.PathKey (path.push (.key "items")) key
  | some _ => False

/-- What is known of a property by its name: the key of its type and whether it may be absent. -/
def PropertyKey (c : Corpus) (path : Reference) (required : List String) (member : String × Json)
    (entry : String × Key × Bool) : Prop :=
  entry.1 = member.1 ∧ c.PathKey (path.pushKeys ["properties", member.1]) entry.2.1 ∧
    entry.2.2 = !required.contains member.1

/-- The key of what `properties` contributes. -/
def ClassKey (c : Corpus) (place : Place) (path : Reference) (key : Key) : Prop :=
  ∃ members required entries, place.fragment.get? "properties" = some (.obj members) ∧
    requiredNames place.fragment path = .ok required ∧
      List.Forall₂ (c.PropertyKey path required) members entries ∧ key = .record entries

/-- The key of what `additionalProperties` contributes. -/
def MapKey (c : Corpus) (place : Place) (path : Reference) (key : Key) : Prop :=
  match place.fragment.get? "additionalProperties" with
  | some (.bool false) => place.fragment.has "properties" = false ∧ key = .record []
  | some (.bool true) => key = .map (.primitive .any)
  | some (.obj _) => ∃ values, c.PathKey (path.push (.key "additionalProperties")) values ∧
      key = .map values
  | _ => False

/-- The key of a type that a schema names, which is converted at a path. -/
def TypeKey (c : Corpus) (place : Place) (name : String) (path : Reference) (key : Key) : Prop :=
  match TypeName.ofText? name with
  | none => False
  | some .object => key = .part place.path (.object path)
  | some .array => ∃ items, c.ItemsKey place path items ∧ key = .array items
  | some .boolean => key = .primitive .bool
  | some .null => key = .primitive .null
  | some .integer => key = .primitive .integer
  | some .number => key = .primitive .double
  | some .string => key = .primitive (Conversion.stringKind place.fragment)

/-- The key of what the types of a schema contribute. -/
def TypesKey (c : Corpus) (place : Place) (key : Key) : Prop :=
  match place.typePaths with
  | [] => False
  | [(name, path)] => c.TypeKey place name path key
  | _ => key = .part place.path .types

/-- The key of the texts of an enum. -/
def TextsKey (place : Place) (key : Key) : Prop :=
  ∃ items texts nullable, place.fragment.get? "enum" = some (.arr items) ∧
    enumCases items = .ok (texts, nullable) ∧ key = .enum texts

/-- The keys of the members of a union or intersection. -/
def MemberKey (c : Corpus) (place : Place) : Part → Key → Prop
  | .whole => OrElse (fun key => ((c.BranchKey place .allOf key ∨ ChoiceKey place .oneOf key) ∨
      ChoiceKey place .anyOf key) ∨ c.TypesKey place key) (.primitive .any)
  | .choice combinator => c.BranchKey place combinator
  | .types => fun key => ∃ e ∈ place.typePaths, c.TypeKey place e.1 e.2 key
  | .object path => OrElse (fun key => c.ClassKey place path key ∨ c.MapKey place path key)
      (.map (.primitive .any))
  | .positions path => OrElse (c.PositionKey place path) (.primitive .any)
  | .nullable => fun key => key = .primitive .null ∨ TextsKey place key

theorem TextsKey.unique {key other : Key} (h : TextsKey place key) (hother : TextsKey place other) :
    other = key := by
  obtain ⟨items, texts, nullable, hitems, htexts, rfl⟩ := h
  obtain ⟨items', texts', nullable', hitems', htexts', rfl⟩ := hother
  rw [hitems] at hitems'
  cases hitems'
  rw [htexts] at htexts'
  cases htexts'
  rfl

theorem ItemsKey.unique {path : Reference} {key other : Key} (h : c.ItemsKey place path key)
    (hother : c.ItemsKey place path other) : other = key := by
  unfold ItemsKey at h hother
  split at h
  · rw [h]
    simp_all
  · rw [h]
    simp_all
  · next hitems =>
    rw [hitems] at hother
    exact h.unique hother
  · next hitems =>
    rw [hitems] at hother
    exact h.unique hother
  · exact h.elim

theorem TypeKey.unique {name : String} {path : Reference} {key other : Key}
    (h : c.TypeKey place name path key) (hother : c.TypeKey place name path other) :
    other = key := by
  unfold TypeKey at h hother
  cases hname : TypeName.ofText? name with
  | none =>
    rw [hname] at h
    exact h.elim
  | some type =>
    rw [hname] at h hother
    cases type with
    | array =>
      obtain ⟨items, hitems, rfl⟩ := h
      obtain ⟨items', hitems', rfl⟩ := hother
      rw [hitems.unique hitems']
    | object | boolean | null | integer | number | string => exact Eq.trans hother (Eq.symm h)

theorem PropertyKey.unique {path : Reference} {required : List String} {member : String × Json}
    {entry other : String × Key × Bool} (h : c.PropertyKey path required member entry)
    (hother : c.PropertyKey path required member other) : other = entry := by
  obtain ⟨hname, hkey, hoptional⟩ := h
  obtain ⟨hname', hkey', hoptional'⟩ := hother
  exact Prod.ext (hname'.trans hname.symm)
    (Prod.ext (hkey.unique hkey') (hoptional'.trans hoptional.symm))

theorem ClassKey.unique {path : Reference} {key other : Key} (h : c.ClassKey place path key)
    (hother : c.ClassKey place path other) : other = key := by
  obtain ⟨members, required, entries, hmembers, hrequired, hentries, rfl⟩ := h
  obtain ⟨members', required', entries', hmembers', hrequired', hentries', rfl⟩ := hother
  rw [hmembers] at hmembers'
  rw [hrequired] at hrequired'
  cases hmembers'
  cases hrequired'
  have hunique : Relator.RightUnique (c.PropertyKey path required) :=
    fun _ _ _ hentry hentry' => hentry'.unique hentry
  rw [hunique.forall₂ hentries hentries']

theorem MapKey.unique {path : Reference} {key other : Key} (h : c.MapKey place path key)
    (hother : c.MapKey place path other) : other = key := by
  unfold MapKey at h hother
  split at h
  · next hfalse =>
    rw [hfalse] at hother
    rw [h.2, hother.2]
  · next htrue =>
    rw [htrue] at hother
    exact Eq.trans hother h.symm
  · next hobj =>
    rw [hobj] at hother
    obtain ⟨values, hvalues, rfl⟩ := h
    obtain ⟨values', hvalues', rfl⟩ := hother
    rw [hvalues.unique hvalues']
  · exact h.elim

/-! ## Keys of nodes -/

/-- What is known of a property by its name is what the node says. -/
def EntryOf (key : NodeId → Option Key) (property : Property) (entry : String × Key × Bool) : Prop :=
  property.name = entry.1 ∧ key property.target = some entry.2.1 ∧ property.optional = entry.2.2

theorem rightUnique_entryOf (key : NodeId → Option Key) : Relator.RightUnique (EntryOf key) := by
  rintro p e e' ⟨hname, htarget, hoptional⟩ ⟨hname', htarget', hoptional'⟩
  rw [htarget] at htarget'
  exact Prod.ext (hname.symm.trans hname')
    (Prod.ext (Option.some.inj htarget') (hoptional.symm.trans hoptional'))

/-- Where no two nodes have the same key, an entry belongs to one property. -/
theorem leftUnique_entryOf {key : NodeId → Option Key}
    (hinjective : ∀ t u k, key t = some k → key u = some k → t = u) :
    Relator.LeftUnique (EntryOf key) := by
  rintro ⟨name, target, optional⟩ ⟨name', target', optional'⟩ e ⟨hname, htarget, hoptional⟩
    ⟨hname', htarget', hoptional'⟩
  dsimp only at hname htarget hoptional hname' htarget' hoptional'
  rw [hname, hname', hoptional, hoptional', hinjective _ _ _ htarget htarget']

/-- A node of some shape may go by some key, given the keys of its parts.  A union or intersection that
waits for its members may go by the key of what it is made for; once it has members, their keys are
those that the documents call for. -/
inductive Suits (c : Corpus) (key : NodeId → Option Key) : Shape → Key → Prop
  | primitive (kind : Primitive) : Suits c key (.primitive kind) (.primitive kind)
  | enum (texts : List String) : Suits c key (.enum texts) (.enum texts)
  | array {items : NodeId} {k : Key} (items_eq : key items = some k) :
      Suits c key (.array items) (.array k)
  | map {values : NodeId} {k : Key} (values_eq : key values = some k) :
      Suits c key (.map values) (.map k)
  | record {properties : List Property} {entries : List (String × Key × Bool)}
      (entries_eq : List.Forall₂ (EntryOf key) properties entries) :
      Suits c key (.record properties) (.record entries)
  | unset (base : Reference) (part : Part) :
      Suits c key (.combination part.operation none) (.part base part)
  | set {place : Place} {base : Reference} {part : Part} {members : SortedSet NodeId}
      (place_eq : c.place? base = some place)
      (collects : Collects key members (c.MemberKey place part)) :
      Suits c key (.combination part.operation (some members)) (.part base part)

namespace Suits

variable {key key' : NodeId → Option Key} {shape other : Shape} {k : Key}

/-- Further keys change nothing. -/
theorem mono (hkey : ∀ t k, key t = some k → key' t = some k) (h : c.Suits key shape k) :
    c.Suits key' shape k := by
  cases h with
  | primitive kind => exact .primitive kind
  | enum texts => exact .enum texts
  | array hitems => exact .array (hkey _ _ hitems)
  | map hvalues => exact .map (hkey _ _ hvalues)
  | record hentries =>
    refine .record (hentries.imp ?_)
    rintro p e ⟨hname, htarget, hoptional⟩
    exact ⟨hname, hkey _ _ htarget, hoptional⟩
  | unset base part => exact .unset base part
  | set hplace hcollects => exact .set hplace (hcollects.mono hkey)

/-- A shape other than a union or intersection has one key. -/
theorem key_unique (hshape : shape.isCombination = false) {k' : Key} (h : c.Suits key shape k)
    (h' : c.Suits key shape k') : k' = k := by
  cases h with
  | primitive _ | enum _ => cases h'; rfl
  | array hitems =>
    cases h' with
    | array hitems' =>
      rw [hitems] at hitems'
      rw [Option.some.inj hitems']
  | map hvalues =>
    cases h' with
    | map hvalues' =>
      rw [hvalues] at hvalues'
      rw [Option.some.inj hvalues']
  | record hentries =>
    cases h' with
    | record hentries' => rw [(rightUnique_entryOf key).forall₂ hentries hentries']
  | unset | set => cases hshape

/-- Where no two nodes have the same key, a key belongs to one shape, apart from unions and
intersections. -/
theorem shape_unique (hinjective : ∀ t u k, key t = some k → key u = some k → t = u)
    (hshape : shape.isCombination = false) (h : c.Suits key shape k) (h' : c.Suits key other k) :
    other = shape := by
  cases h with
  | primitive _ | enum _ => cases h'; rfl
  | array hitems =>
    cases h' with
    | array hitems' => rw [hinjective _ _ _ hitems hitems']
  | map hvalues =>
    cases h' with
    | map hvalues' => rw [hinjective _ _ _ hvalues hvalues']
  | record hentries =>
    cases h' with
    | record hentries' => rw [(leftUnique_entryOf hinjective).forall₂ hentries hentries']
  | unset | set => cases hshape

end Suits

end Corpus

end ShapeGraph
