import Mathlib.Logic.Relation
import ShapeGraph.Documents.Memory
import ShapeGraph.Proofs.Inner

/-!
# The documents of a conversion

A conversion moves through a root document and the documents of a store.  As long as the store agrees
with the root document, a path alone tells which fragment stands at it, and everything that a
conversion may meet can be described by following paths.

## Main definitions

* `Corpus` — a root document with its address, and a store.
* `Corpus.Located` — the fragment of a place is the one that its path leads to.
* `Corpus.target?`, `Corpus.Leads` — where a reference leads.
* `Corpus.Grounded` — a run of references ends at a schema that is none.
* `Corpus.Endless` — a run of references resolves at every step and never ends.
* `Corpus.Reaches` — one path is met in the conversion of another.
* `Corpus.WellShaped` — what stands at a path has the right shape.
* `Corpus.Explains` — a failure has its cause at a path.
* `Corpus.Blames` — a failure has its cause in something that is met.

## Main results

* `Corpus.Located.target` — references lead to located places.
* `Corpus.Grounded.not_cyclic` — a run of references that ends does not return to where it starts.
* `Corpus.endless_of_cyclic` — a run of references that returns to where it starts never ends.
-/

set_option autoImplicit false

namespace ShapeGraph

/-- A root document with its address, and further documents. -/
structure Corpus where
  /-- The root document. -/
  root : Json
  /-- Its address. -/
  rootAddress : String
  /-- The further documents. -/
  store : MemoryStore

namespace Corpus

variable {c : Corpus}

/-! ## Places -/

/-- The document at an address. -/
def document? (c : Corpus) (address : String) : Option Json :=
  if address = c.rootAddress then some c.root else c.store.documents.find? address

/-- If the store has a document at the root's address, it is the root document. -/
def Consistent (c : Corpus) : Prop :=
  ∀ document, c.store.documents.find? c.rootAddress = some document → document = c.root

/-- The place that a path leads to.  Elements that lead nowhere in the text do not move. -/
def place? (c : Corpus) (path : Reference) : Option Place := do
  let document ← c.document? path.address
  let fragment ← path.elements.foldlM document.follow? document
  return ⟨document, fragment, path⟩

/-- The place is the one that its path leads to. -/
structure Located (c : Corpus) (place : Place) : Prop where
  document_eq : c.document? place.path.address = some place.document
  fragment_eq :
    place.path.elements.foldlM place.document.follow? place.document = some place.fragment

theorem located_iff {place : Place} : c.Located place ↔ c.place? place.path = some place := by
  unfold place?
  constructor
  · rintro ⟨hdocument, hfragment⟩
    simp [hdocument, hfragment]
  · intro h
    cases hdocument : c.document? place.path.address with
    | none => simp [hdocument] at h
    | some document =>
      cases hfragment : place.path.elements.foldlM document.follow? document with
      | none => simp [hdocument, hfragment] at h
      | some fragment =>
        simp only [hdocument, hfragment, Option.bind_eq_bind, Option.bind_some] at h
        have hplace := Option.some.inj h
        rw [← hplace]
        exact ⟨hdocument, hfragment⟩

theorem path_of_place? {path : Reference} {place : Place} (h : c.place? path = some place) :
    place.path = path := by
  unfold place? at h
  simp only [Option.bind_eq_bind, Option.bind_eq_some_iff] at h
  obtain ⟨document, -, fragment, -, h⟩ := h
  cases h
  rfl

theorem located_of_place? {path : Reference} {place : Place} (h : c.place? path = some place) :
    c.Located place := by
  rw [located_iff, path_of_place? h, h]

/-- Places with one path are the same. -/
theorem Located.eq_of_path_eq {place other : Place} (hplace : c.Located place)
    (hother : c.Located other) (h : place.path = other.path) : place = other := by
  rw [located_iff] at hplace hother
  rw [h, hother] at hplace
  exact (Option.some.inj hplace).symm

/-- A document that is fetched is the one at its address. -/
theorem Consistent.document?_of_find? (hc : c.Consistent) {address : String} {document : Json}
    (h : c.store.documents.find? address = some document) :
    c.document? address = some document := by
  unfold document?
  split
  · next heq =>
    subst heq
    rw [hc document h]
  · exact h

/-! ## Moving on from a place -/

theorem located_ofDocument {address : String} {document : Json}
    (h : c.document? address = some document) : c.Located (Place.ofDocument address document) :=
  ⟨h, rfl⟩

/-- One step further from a located place. -/
theorem Located.push {place : Place} (hplace : c.Located place) {e : PathElement} {fragment : Json}
    (h : place.document.follow? place.fragment e = some fragment) :
    c.Located ⟨place.document, fragment, place.path.push e⟩ := by
  refine ⟨hplace.document_eq, ?_⟩
  simp only [Reference.push, List.foldlM_append, hplace.fragment_eq]
  simp [h]

/-- A walk from a located place inside one document reaches a located place. -/
theorem Located.lookup {place reached : Place} {target : Reference} (hplace : c.Located place)
    (h : place.lookup target = .ok reached) (haddress : target.address = place.path.address) :
    c.Located reached := by
  have hkeeps := Place.lookup_induction
    (motive := fun p => c.Located p ∧ p.path.address = target.address) h ⟨hplace, haddress.symm⟩ ?_
  · exact hkeeps.1
  · rintro p q element - ⟨hp, hpaddress⟩ hspec
    by_cases hroot : element = .root
    · subst hroot
      rw [hspec.eq_ofDocument]
      exact ⟨located_ofDocument (hpaddress ▸ hp.document_eq), rfl⟩
    · rw [hspec.eq_push hroot]
      exact ⟨hp.push hspec.follows, hpaddress⟩

/-! ## References -/

/-- The place that a named reference leads to from the root of its document. -/
def entry? (c : Corpus) (reference : Reference) : Option Place :=
  (c.document? reference.address).bind fun document =>
    ((Place.ofDocument reference.address document).lookup reference).toOption

/-- The place that the value of `$ref` at a place leads to. -/
def target? (c : Corpus) (place : Place) (value : Json) : Option Place :=
  match value.text? with
  | none => none
  | some text =>
    let target := Reference.parse place.path.address text
    if target.address = place.path.address then (place.lookup target).toOption
    else (c.store.documents.find? target.address).bind fun document =>
      ((Place.ofDocument target.address document).lookup target).toOption

theorem eq_ok_of_toOption {α : Type} {result : Except Failure α} {a : α}
    (h : result.toOption = some a) : result = .ok a := by
  cases result with
  | error e => cases h
  | ok b => cases h; rfl

/-- Named references lead to located places. -/
theorem located_entry? {reference : Reference} {place : Place}
    (h : c.entry? reference = some place) : c.Located place ∧ place.path.IsAddressable := by
  unfold entry? at h
  obtain ⟨document, hdocument, hlookup⟩ := Option.bind_eq_some_iff.1 h
  have hreached := eq_ok_of_toOption hlookup
  exact ⟨(located_ofDocument hdocument).lookup hreached rfl,
    Place.lookup_isAddressable hreached (Reference.isAddressable_root _)⟩

/-- References lead from located places to located places. -/
theorem Located.target (hc : c.Consistent) {place found : Place} (hplace : c.Located place)
    (haddressable : place.path.IsAddressable) {value : Json}
    (h : c.target? place value = some found) : c.Located found ∧ found.path.IsAddressable := by
  unfold target? at h
  split at h
  · cases h
  · next text _ =>
    dsimp only at h
    split at h
    · next hsame =>
      have hreached := eq_ok_of_toOption h
      exact ⟨hplace.lookup hreached hsame, Place.lookup_isAddressable hreached haddressable⟩
    · obtain ⟨document, hdocument, hlookup⟩ := Option.bind_eq_some_iff.1 h
      have hreached := eq_ok_of_toOption hlookup
      exact ⟨(located_ofDocument (hc.document?_of_find? hdocument)).lookup hreached rfl,
        Place.lookup_isAddressable hreached (Reference.isAddressable_root _)⟩

/-- The schema at one place is a reference that leads to another place. -/
def Leads (c : Corpus) (place found : Place) : Prop :=
  ∃ value, place.fragment.get? "$ref" = some value ∧ c.target? place value = some found

/-- A reference leads to one place only. -/
theorem Leads.unique {place found other : Place} (h : c.Leads place found)
    (hother : c.Leads place other) : found = other := by
  obtain ⟨value, hvalue, hfound⟩ := h
  obtain ⟨value', hvalue', hfound'⟩ := hother
  rw [hvalue] at hvalue'
  cases hvalue'
  rw [hfound] at hfound'
  exact Option.some.inj hfound'

/-- The run of references that starts at a place ends at a schema that is no reference. -/
inductive Grounded (c : Corpus) : Place → Prop
  /-- The schema is no reference. -/
  | schema {place : Place} (no_reference : place.fragment.get? "$ref" = none) : Grounded c place
  /-- The run goes on from the target of the reference. -/
  | hop {place found : Place} (leads : c.Leads place found) (grounded : Grounded c found) :
      Grounded c place

/-- A run of references that ends does not return to where it starts.

**Proof sketch.** Induction on the run.  A schema that is no reference leads nowhere.  If a reference
leads back to itself, then so does its target, because it is the only next place on the way. -/
theorem Grounded.not_cyclic {place : Place} (h : c.Grounded place) :
    ¬ Relation.TransGen c.Leads place place := by
  induction h with
  | schema hnone =>
    intro hcycle
    obtain ⟨next, ⟨value, hvalue, -⟩, -⟩ := Relation.TransGen.head'_iff.1 hcycle
    rw [hnone] at hvalue
    cases hvalue
  | hop hleads _ ih =>
    intro hcycle
    obtain ⟨next, hnext, hback⟩ := Relation.TransGen.head'_iff.1 hcycle
    obtain rfl := hleads.unique hnext
    exact ih (Relation.TransGen.tail' hback hleads)

/-- The run of references from a place resolves at every step and never reaches a schema that is no
reference. -/
def Endless (c : Corpus) (place : Place) : Prop :=
  ∀ found, Relation.ReflTransGen c.Leads place found → ∃ next, c.Leads found next

theorem Endless.next {place found : Place} (h : c.Endless place) (hleads : c.Leads place found) :
    c.Endless found :=
  fun _ hreaches => h _ (hreaches.head hleads)

theorem Endless.of_leads {place found : Place} (hleads : c.Leads place found)
    (h : c.Endless found) : c.Endless place := by
  intro other hreaches
  rcases Relation.ReflTransGen.cases_head hreaches with rfl | ⟨next, hnext, hother⟩
  · exact ⟨found, hleads⟩
  · obtain rfl := hleads.unique hnext
    exact h other hother

/-- A run of references that ends is not one that never ends. -/
theorem Endless.not_grounded {place : Place} (h : c.Endless place) : ¬ c.Grounded place := by
  intro hgrounded
  induction hgrounded with
  | schema hnone =>
    obtain ⟨next, value, hvalue, -⟩ := h _ Relation.ReflTransGen.refl
    rw [hnone] at hvalue
    cases hvalue
  | hop hleads _ ih => exact ih (h.next hleads)

/-- A run of references that returns to where it starts never ends.

**Proof sketch.** Every place on the way lies on the same cycle, because a reference leads to one place
only.  So from each of them the run goes on. -/
theorem endless_of_cyclic {place : Place} (h : Relation.TransGen c.Leads place place) :
    c.Endless place := by
  intro found hreaches
  have hcyclic : Relation.TransGen c.Leads found found := by
    induction hreaches with
    | refl => exact h
    | tail _ hleads ih =>
      obtain ⟨next, hnext, hback⟩ := Relation.TransGen.head'_iff.1 ih
      obtain rfl := hleads.unique hnext
      exact Relation.TransGen.tail' hback hleads
  obtain ⟨next, hnext, -⟩ := Relation.TransGen.head'_iff.1 hcyclic
  exact ⟨next, hnext⟩

/-- A schema that is no reference ends a run of references. -/
theorem not_endless_of_no_reference {place : Place} (h : place.fragment.get? "$ref" = none) :
    ¬ c.Endless place :=
  fun hendless => hendless.not_grounded (.schema h)

/-! ## Schemas inside a schema -/

/-- A type of a located schema is located. -/
theorem Located.typePath {place : Place} (hplace : c.Located place) {name : String}
    {path : Reference} (h : (name, path) ∈ place.typePaths) :
    c.Located ⟨place.document, place.fragment, path⟩ := by
  obtain ⟨-, rfl | rfl | ⟨entries, i, -, -, rfl⟩⟩ := Place.mem_typePaths h
  · exact hplace
  · exact hplace.push rfl
  · exact hplace.push rfl

/-- A property that is found under its name is located. -/
theorem Located.property {place : Place} (hplace : c.Located place) {members : List (String × Json)}
    {name : String} {schema : Json}
    (hmembers : place.fragment.get? "properties" = some (.obj members))
    (hschema : members.lookup name = some schema) :
    c.Located ⟨place.document, schema, place.path.pushKeys ["properties", name]⟩ := by
  rw [Reference.pushKeys_pair]
  have hproperties := hplace.push (e := .key "properties") (Json.part?_of_get? hmembers)
  exact hproperties.push (e := .key name) hschema

/-- A schema under a combinator is located. -/
theorem Located.branch {place : Place} (hplace : c.Located place) {combinator : Combinator}
    {schemas : List Json} {i : Nat} {schema : Json}
    (hcases : place.fragment.get? combinator.keyword = some (.arr schemas))
    (hschema : schemas[i]? = some schema) :
    c.Located ⟨place.document, schema, place.path.push (.branch combinator i)⟩ := by
  refine hplace.push ?_
  simp only [Json.follow?, Json.part?_of_get? hcases, Option.bind_some, Json.part?_arr, hschema]

/-- One position of a list of schemas is located. -/
theorem Located.position {place : Place} (hplace : c.Located place) {positions : List Json}
    {i : Nat} {schema : Json} (hpositions : place.fragment.get? "items" = some (.arr positions))
    (hschema : positions[i]? = some schema) :
    c.Located ⟨place.document, schema,
      (place.path.push (.key "items")).push (.key (toString i))⟩ := by
  have hitems := hplace.push (e := .key "items") (Json.part?_of_get? hpositions)
  refine hitems.push (e := .key (toString i)) ?_
  rw [Json.follow?, Json.part?_arr, hschema]

/-! ## What is met, and in which shape it has to be -/

/-- The schema at the first path is a reference to the second one, or holds a schema there. -/
def Step (c : Corpus) (path next : Reference) : Prop :=
  ∃ place, c.place? path = some place ∧
    ((∃ found, c.Leads place found ∧ found.path = next) ∨
      place.IsSchema ∧ ∃ inner, place.Inner inner ∧ inner.path = next)

/-- The second path is met in the conversion of the first one. -/
def Reaches (c : Corpus) : Reference → Reference → Prop := Relation.ReflTransGen c.Step

/-- The fragment at a place has the right shape. -/
def Shaped (c : Corpus) (place : Place) : Prop :=
  match place.fragment with
  | .bool _ => True
  | .obj _ =>
    match place.fragment.get? "$ref" with
    | some value => (∃ found, c.target? place value = some found) ∧ c.Grounded place
    | none =>
      match place.fragment.get? "enum" with
      | some cases => ∃ items, cases = .arr items ∧ Json.EnumListed items
      | none => place.fragment.SchemaShaped
  | _ => False

/-- What stands at a path has the right shape. -/
def WellShaped (c : Corpus) (path : Reference) : Prop :=
  ∃ place, c.place? path = some place ∧ c.Shaped place

/-- A run of references that never ends starts at the path. -/
def EndlessAt (c : Corpus) (path : Reference) : Prop :=
  ∃ place, c.place? path = some place ∧ c.Endless place

theorem EndlessAt.not_wellShaped {path : Reference} (h : c.EndlessAt path) : ¬ c.WellShaped path := by
  rintro ⟨place, hplace, hshaped⟩
  obtain ⟨other, hother, hendless⟩ := h
  rw [hplace] at hother
  cases hother
  obtain ⟨next, value, hvalue, -⟩ := hendless place Relation.ReflTransGen.refl
  unfold Shaped at hshaped
  obtain ⟨members, hmembers⟩ := Json.exists_eq_obj_of_get? hvalue
  rw [hvalue, hmembers] at hshaped
  exact hendless.not_grounded hshaped.2

/-- What stands at the path has the wrong shape, and unless the failure reports a cycle, this is not because
a run of references never ends. -/
structure Explains (c : Corpus) (culprit : Reference) (e : Failure) : Prop where
  misshapen : ¬ c.WellShaped culprit
  ends : e.isCycle = false → ¬ c.EndlessAt culprit

/-- The failure is no fault of logic, and unless schemas are nested too deep, something that is met in
the conversion of a path explains it. -/
def Blames (c : Corpus) (path : Reference) (e : Failure) : Prop :=
  e.isLogicFault = false ∧
    (e.isDepthFault = true ∨ ∃ culprit, c.Reaches path culprit ∧ c.Explains culprit e)

/-- What is to blame further on is to blame from here on. -/
theorem Blames.of_step {path next : Reference} {e : Failure} (hstep : c.Step path next)
    (h : c.Blames next e) : c.Blames path e := by
  obtain ⟨hlogic, hdepth | ⟨culprit, hreaches, hexplains⟩⟩ := h
  · exact ⟨hlogic, Or.inl hdepth⟩
  · exact ⟨hlogic, Or.inr ⟨culprit, hreaches.head hstep, hexplains⟩⟩

/-- A located place with the wrong shape is to blame. -/
theorem Located.blames {place : Place} (hplace : c.Located place) (hshape : ¬ c.Shaped place)
    {e : Failure} (hends : e.isCycle = false → ¬ c.Endless place) (he : e.isLogicFault = false) :
    c.Blames place.path e := by
  have hunique : ∀ {other : Place}, c.place? place.path = some other → other = place := by
    intro other hother
    rw [located_iff.1 hplace] at hother
    exact (Option.some.inj hother).symm
  refine ⟨he, Or.inr ⟨place.path, Relation.ReflTransGen.refl, ?_, fun hcycle => ?_⟩⟩
  · rintro ⟨other, hother, hshaped⟩
    exact hshape (hunique hother ▸ hshaped)
  · rintro ⟨other, hother, hendless⟩
    exact hends hcycle (hunique hother ▸ hendless)

theorem Located.step_inner {place inner : Place} (hplace : c.Located place)
    (hschema : place.IsSchema) (h : place.Inner inner) : c.Step place.path inner.path :=
  ⟨place, located_iff.1 hplace, Or.inr ⟨hschema, inner, h, rfl⟩⟩

theorem Located.step_leads {place found : Place} (hplace : c.Located place)
    (h : c.Leads place found) : c.Step place.path found.path :=
  ⟨place, located_iff.1 hplace, Or.inl ⟨found, h, rfl⟩⟩

/-! ## Shapes of the kinds of schemas -/

theorem shaped_of_bool {place : Place} {b : Bool} (h : place.fragment = .bool b) :
    c.Shaped place := by
  unfold Shaped
  rw [h]
  trivial

theorem shaped_iff_of_reference {place : Place} {value : Json}
    (h : place.fragment.get? "$ref" = some value) :
    c.Shaped place ↔ (∃ found, c.target? place value = some found) ∧ c.Grounded place := by
  obtain ⟨members, hmembers⟩ := Json.exists_eq_obj_of_get? h
  unfold Shaped
  rw [h, hmembers]

theorem shaped_iff_of_enum {place : Place} {cases : Json}
    (href : place.fragment.get? "$ref" = none) (h : place.fragment.get? "enum" = some cases) :
    c.Shaped place ↔ ∃ items, cases = .arr items ∧ Json.EnumListed items := by
  obtain ⟨members, hmembers⟩ := Json.exists_eq_obj_of_get? h
  unfold Shaped
  rw [href, h, hmembers]

theorem shaped_iff_of_isSchema {place : Place} (h : place.IsSchema) :
    c.Shaped place ↔ place.fragment.SchemaShaped := by
  obtain ⟨members, hmembers⟩ := h.isObject
  unfold Shaped
  rw [h.no_reference, h.no_enum, hmembers]

theorem not_shaped_of_none {place : Place} (hbool : ∀ b, place.fragment ≠ .bool b)
    (hobj : ∀ members, place.fragment ≠ .obj members) : ¬ c.Shaped place := by
  unfold Shaped
  split
  · next b hb => exact absurd hb (hbool b)
  · next members hmembers => exact absurd hmembers (hobj members)
  · exact fun h => h

end Corpus

end ShapeGraph
