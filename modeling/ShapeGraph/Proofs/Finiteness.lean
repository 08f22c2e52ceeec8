import Mathlib.Algebra.Group.Nat.Defs
import Mathlib.Data.Finset.Card
import ShapeGraph.Conversion.Run
import ShapeGraph.Proofs.Corpus
import ShapeGraph.Proofs.Membership
import ShapeGraph.Proofs.Vocabulary

/-!
# The paths that a conversion can meet

However documents refer to themselves and to each other, a conversion meets only finitely many paths.
The path of a schema starts at the root of a document, each of its steps is named somewhere, and since
the steps lead deeper into the document, it cannot be long.

## Main definitions

* `Realm` — the documents that a conversion can meet, and the addresses at which it finds them.
* `Realm.alphabet` — the steps of which paths are made.
* `Realm.paths` — the paths that a conversion can meet.
* `Realm.Fits` — a place whose path is one of them, and from which no others are met.
* `Corpus.realm` — what can be met among the documents of a store.

## Main results

* `Realm.Fits.inner`, `Realm.Fits.lookup` — what is met from such a place is such a place.
* `Realm.card_paths_le` — how many paths there are.

## Design

A relative reference makes the path longer without limit as far as its text goes, but its steps lead
to parts that are nested less deep.  Elements that do not move come at most once before one that
does.  Together, the length of a path and twice the depth of what stands there never exceed twice the
depth of the document by more than one; the place of a type, one step further, is granted a slack.

One document may have many addresses.  Its steps count once, so the number of paths is only
proportional to the number of addresses.

Nothing is said here about the documents at one address being the same.
-/

set_option autoImplicit false

namespace ShapeGraph

/-- What a conversion can meet. -/
structure Realm where
  /-- The root document. -/
  root : Json
  /-- Its address. -/
  rootAddress : String
  /-- The further documents, with one address each. -/
  entries : List (String × Json)
  /-- The addresses at which these can be found. -/
  found : List String
  /-- The references that are converted. -/
  references : List Reference
  /-- How many addresses there may be beyond one for each document. -/
  further : Nat
  found_le : found.length ≤ entries.length + further

namespace Realm

/-! ## Documents, addresses and steps -/

/-- The documents that can be met. -/
def documents (r : Realm) : List Json := r.root :: r.entries.map Prod.snd

/-- Their addresses. -/
def addresses (r : Realm) : List String := r.rootAddress :: r.found

/-- The steps that do not depend on any document. -/
def fixedSteps : List PathElement :=
  [.root, .object, .key "properties", .key "additionalProperties", .key "items"]

/-- The steps of which paths are made. -/
def alphabet (r : Realm) : List PathElement :=
  fixedSteps ++ (r.documents.flatMap Json.steps ++ r.references.flatMap Reference.elements)

/-- The extent of the further documents. -/
def furtherExtent (r : Realm) : Extent :=
  (r.entries.map fun e => Extent.ofDocument e.1 e.2).foldl .join ⟨0, 0, r.further⟩

/-- The extent of all that a conversion can meet. -/
def extent (r : Realm) : Extent :=
  (r.references.map Extent.ofReference).foldl .join
    (r.furtherExtent.join (.ofDocument r.rootAddress r.root))

/-- The paths that a conversion can meet. -/
def paths (r : Realm) : Finset Reference :=
  (r.addresses.flatMap fun address =>
    (words r.alphabet (2 * r.extent.depth + 1)).map (Reference.mk address)).toFinset

variable {r : Realm}

theorem mem_alphabet_of_document {document : Json} (hdocument : document ∈ r.documents)
    {e : PathElement} (he : e ∈ document.steps) : e ∈ r.alphabet :=
  List.mem_append_right _ (List.mem_append_left _ (List.mem_flatMap.2 ⟨document, hdocument, he⟩))

theorem mem_alphabet_of_fixed {e : PathElement} (he : e ∈ fixedSteps) : e ∈ r.alphabet :=
  List.mem_append_left _ he

theorem mem_alphabet_of_reference {reference : Reference} (hreference : reference ∈ r.references)
    {e : PathElement} (he : e ∈ reference.elements) : e ∈ r.alphabet :=
  List.mem_append_right _ (List.mem_append_right _ (List.mem_flatMap.2 ⟨reference, hreference, he⟩))

/-! ## Places -/

/-- The place is in one of the documents, its path and what stands there are made of the known steps,
and it lies the deeper, the longer the path is. -/
structure Fits (r : Realm) (slack : Nat) (place : Place) : Prop where
  address_mem : place.path.address ∈ r.addresses
  document_mem : place.document ∈ r.documents
  elements_mem : ∀ e ∈ place.path.elements, e ∈ r.alphabet
  steps_mem : ∀ e ∈ place.fragment.steps, e ∈ r.alphabet
  length_le : place.path.elements.length + 2 * place.fragment.depth ≤
    2 * place.document.depth + 1 + slack

namespace Fits

variable {slack : Nat} {place : Place}

/-- The root of a document. -/
theorem ofDocument {address : String} {document : Json} (haddress : address ∈ r.addresses)
    (hdocument : document ∈ r.documents) :
    r.Fits 0 (Place.ofDocument address document) := by
  refine ⟨haddress, hdocument, fun e he => ?_, fun e he => mem_alphabet_of_document hdocument he, ?_⟩
  · rw [List.mem_singleton.1 he]
    exact mem_alphabet_of_fixed (by simp [fixedSteps])
  · change 1 + 2 * document.depth ≤ 2 * document.depth + 1 + 0
    omega

/-- One step further, to a part of what stands at the place. -/
theorem push (h : r.Fits slack place) {part : Json} (hpart : part.PartOf place.fragment)
    {e : PathElement} (he : e ∈ r.alphabet) :
    r.Fits (slack - 1) ⟨place.document, part, place.path.push e⟩ := by
  refine ⟨h.address_mem, h.document_mem, fun f hf => ?_,
    fun f hf => h.steps_mem f (hpart.steps f hf), ?_⟩
  · rcases List.mem_append.1 hf with hf | hf
    · exact h.elements_mem f hf
    · rw [List.mem_singleton.1 hf]
      exact he
  · have hlength := h.length_le
    have hdepth := hpart.depth
    change (place.path.elements ++ [e]).length + 2 * part.depth ≤
      2 * place.document.depth + 1 + (slack - 1)
    rw [List.length_append, List.length_singleton]
    omega

/-- The place of a type of a schema. -/
theorem typePath (h : r.Fits 0 place) {name : String} {path : Reference}
    (hpath : (name, path) ∈ place.typePaths) :
    r.Fits 1 ⟨place.document, place.fragment, path⟩ := by
  have hpush : ∀ e ∈ r.alphabet,
      r.Fits 1 ⟨place.document, place.fragment, place.path.push e⟩ := by
    intro e he
    refine ⟨h.address_mem, h.document_mem, fun f hf => ?_, h.steps_mem, ?_⟩
    · rcases List.mem_append.1 hf with hf | hf
      · exact h.elements_mem f hf
      · rw [List.mem_singleton.1 hf]
        exact he
    · have hlength := h.length_le
      change (place.path.elements ++ [e]).length + 2 * place.fragment.depth ≤
        2 * place.document.depth + 1 + 1
      rw [List.length_append, List.length_singleton]
      omega
  obtain ⟨-, rfl | rfl | ⟨entries, i, htype, hi, rfl⟩⟩ := Place.mem_typePaths hpath
  · exact ⟨h.address_mem, h.document_mem, h.elements_mem, h.steps_mem, Nat.le_succ_of_le h.length_le⟩
  · exact hpush _ (mem_alphabet_of_fixed (by simp [fixedSteps]))
  · refine hpush _ (h.steps_mem _ ((Json.PartOf.of_get? htype).steps _ ?_))
    exact Json.positionSteps_subset hi (by simp [positionSteps])

/-- An item of a list at the place, by its position. -/
theorem pushPosition (h : r.Fits slack place) {items : List Json}
    (hitems : (Json.arr items).PartOf place.fragment) {i : Nat} {item : Json}
    (hitem : items[i]? = some item) {e : PathElement} (he : e ∈ positionSteps i) :
    r.Fits (slack - 1) ⟨place.document, item, place.path.push e⟩ := by
  refine h.push ((Json.partOf_of_getElem? hitem).trans hitems) (h.steps_mem e (hitems.steps e ?_))
  exact Json.positionSteps_subset (List.getElem?_eq_some_iff.1 hitem).1 he

/-- The schemas inside a schema. -/
theorem inner (h : r.Fits 0 place) {child : Place} (hinner : place.Inner child) :
    r.Fits 0 child := by
  cases hinner with
  | @branch combinator schemas i schema hcases hschema =>
    exact h.pushPosition (.of_get? hcases) hschema (branch_mem_positionSteps combinator i)
  | @property path members name schema hobject hmembers hmem =>
    obtain ⟨hpart, hname⟩ := Json.partOf_of_mem hmem
    have hproperties := (h.typePath hobject).push (.of_get? hmembers) (e := .key "properties")
      (mem_alphabet_of_fixed (by simp [fixedSteps]))
    rw [Reference.pushKeys_pair]
    exact hproperties.push hpart (hproperties.steps_mem _ hname)
  | additional hobject hschema =>
    exact (h.typePath hobject).push (.of_get? hschema)
      (mem_alphabet_of_fixed (by simp [fixedSteps]))
  | items harray hschema _ =>
    exact (h.typePath harray).push (.of_get? hschema)
      (mem_alphabet_of_fixed (by simp [fixedSteps]))
  | @position path positions i schema harray hpositions hschema =>
    have hitems := (h.typePath harray).push (.of_get? hpositions) (e := .key "items")
      (mem_alphabet_of_fixed (by simp [fixedSteps]))
    have hkey := Json.positionSteps_subset (List.getElem?_eq_some_iff.1 hschema).1
      (e := .key (toString i)) (by simp [positionSteps])
    exact hitems.push (Json.partOf_of_getElem? hschema) (hitems.steps_mem _ hkey)

/-- The target of a reference inside the same document. -/
theorem lookup (h : r.Fits 0 place) {target : Reference} {reached : Place}
    (hlookup : place.lookup target = .ok reached) (haddress : target.address = place.path.address)
    (htarget : ∀ e ∈ target.elements, e ∈ r.alphabet) :
    r.Fits 0 reached := by
  have hreached := Place.lookup_induction
    (motive := fun p => r.Fits 0 p ∧ p.path.address = target.address) hlookup
    ⟨h, haddress.symm⟩ ?_
  · exact hreached.1
  · rintro p q element hmem ⟨hp, hpaddress⟩ hspec
    by_cases hroot : element = .root
    · subst hroot
      rw [hspec.eq_ofDocument]
      exact ⟨ofDocument (hpaddress ▸ hp.address_mem) hp.document_mem, rfl⟩
    · rw [hspec.eq_push hroot]
      have hpart := Json.PartOf.of_follow? hspec.addressable hroot hspec.follows
      exact ⟨hp.push hpart (htarget element hmem), hpaddress⟩

/-- The steps of the reference that a schema means. -/
theorem target_mem (h : r.Fits slack place) {text : String}
    (htext : place.fragment.get? "$ref" = some (.str text)) (base : String) :
    ∀ e ∈ (Reference.parse base text).elements, e ∈ r.alphabet := by
  intro e he
  rw [Reference.elements_parse] at he
  exact h.steps_mem e ((Json.PartOf.of_get? htext).steps e he)

end Fits

/-! ## Extents -/

/-- The extent of documents together, with that of what comes before them. -/
theorem documents_extent (entries : List (String × Json)) (start : Extent) :
    let whole := (entries.map fun e => Extent.ofDocument e.1 e.2).foldl .join start
    ((entries.map Prod.snd).flatMap Json.steps).length + 7 * start.size ≤ 7 * whole.size ∧
      entries.length + start.addresses = whole.addresses ∧ start.depth ≤ whole.depth ∧
        ∀ e ∈ entries, e.2.depth ≤ whole.depth := by
  induction entries generalizing start with
  | nil => simp
  | cons entry rest ih =>
    obtain ⟨hsteps, hcount, hstart, hdepth⟩ :=
      ih (start.join (Extent.ofDocument entry.1 entry.2))
    have hentry := Json.length_steps_le entry.2
    simp only [Extent.join, Extent.ofDocument] at hsteps hcount hstart hdepth
    simp only [List.map_cons, List.foldl_cons, List.flatMap_cons, List.length_append,
      List.length_cons, Extent.join, Extent.ofDocument]
    refine ⟨by omega, by omega, by omega, fun e he => ?_⟩
    rcases List.mem_cons.1 he with rfl | he
    · omega
    · exact hdepth e he

/-- The extent of references together, with that of what comes before them. -/
theorem references_extent (references : List Reference) (start : Extent) :
    let whole := (references.map Extent.ofReference).foldl .join start
    (references.flatMap Reference.elements).length + start.size ≤ whole.size ∧
      start.depth ≤ whole.depth ∧ start.addresses = whole.addresses := by
  induction references generalizing start with
  | nil => simp
  | cons reference rest ih =>
    obtain ⟨hsteps, hstart, haddresses⟩ := ih (start.join (Extent.ofReference reference))
    simp only [Extent.join, Extent.ofReference] at hsteps hstart haddresses
    simp only [List.map_cons, List.foldl_cons, List.flatMap_cons, List.length_append,
      Extent.join, Extent.ofReference]
    exact ⟨by omega, by omega, by omega⟩

/-- The numbers of steps and addresses and the depth of documents are bounded by the extent. -/
structure ExtentSpec (r : Realm) : Prop where
  alphabet_le : r.alphabet.length + 1 ≤ 8 * r.extent.size + 8
  addresses_le : r.addresses.length ≤ r.extent.addresses
  depth_le : ∀ document ∈ r.documents, document.depth ≤ r.extent.depth

theorem extent_spec (r : Realm) : r.ExtentSpec := by
  obtain ⟨hsteps, hcount, -, hdepth⟩ := documents_extent r.entries ⟨0, 0, r.further⟩
  obtain ⟨hreferences, hstart, haddresses⟩ := references_extent r.references
    (r.furtherExtent.join (.ofDocument r.rootAddress r.root))
  have hroot := Json.length_steps_le r.root
  have hfound := r.found_le
  have hfurther : r.furtherExtent =
    (r.entries.map fun e => Extent.ofDocument e.1 e.2).foldl .join ⟨0, 0, r.further⟩ := rfl
  have hextent : r.extent = (r.references.map Extent.ofReference).foldl .join
    (r.furtherExtent.join (.ofDocument r.rootAddress r.root)) := rfl
  rw [← hextent] at hreferences hstart haddresses
  rw [← hfurther] at hsteps hcount hdepth
  simp only [Extent.join, Extent.ofDocument] at hsteps hcount hreferences hstart haddresses
  refine ⟨?_, ?_, fun document hdocument => ?_⟩
  · simp only [alphabet, fixedSteps, documents, List.flatMap_cons, List.length_append,
      List.length_cons, List.length_nil]
    omega
  · simp only [addresses, List.length_cons]
    omega
  · rcases List.mem_cons.1 hdocument with rfl | hdocument
    · omega
    · obtain ⟨e, he, rfl⟩ := List.mem_map.1 hdocument
      exact Nat.le_trans (hdepth e he) (by omega)

/-! ## The number of paths -/

/-- The path of a place that fits is one of those that can be met. -/
theorem Fits.mem_paths {place : Place} (h : r.Fits 0 place) : place.path ∈ r.paths := by
  refine List.mem_toFinset.2 (List.mem_flatMap.2 ⟨place.path.address, h.address_mem, ?_⟩)
  refine List.mem_map.2 ⟨place.path.elements, mem_words h.elements_mem ?_, rfl⟩
  have hlength := h.length_le
  have hdepth := r.extent_spec.depth_le _ h.document_mem
  omega

/-- For each address, there are not more paths than numerals of some length. -/
theorem card_paths_le (r : Realm) :
    r.paths.card ≤ r.extent.addresses * (8 * r.extent.size + 8) ^ (2 * r.extent.depth + 1) := by
  obtain ⟨halphabet, haddresses, -⟩ := r.extent_spec
  have hwords := length_words_le r.alphabet (2 * r.extent.depth + 1)
  have hbase := Nat.pow_le_pow_left halphabet (2 * r.extent.depth + 1)
  refine Nat.le_trans (List.toFinset_card_le _) ?_
  rw [List.length_flatMap]
  simp only [List.length_map, List.map_const', List.sum_replicate_nat]
  exact Nat.mul_le_mul haddresses (Nat.le_trans hwords hbase)

/-- Twice as many levels as there are paths, and more, are within the bound for nesting. -/
theorem card_paths_lt_nestingBound (r : Realm) :
    r.paths.card * (r.paths.card + 1) + r.paths.card < nestingBound r.extent := by
  have hcard := r.card_paths_le
  generalize r.paths.card = n at hcard ⊢
  unfold nestingBound
  generalize hbase : 8 * r.extent.size + 8 = base at hcard ⊢
  generalize r.extent.depth = depth at hcard ⊢
  generalize r.extent.addresses = count at hcard ⊢
  have hsucc : n + 1 ≤ (count + 1) * base ^ (2 * depth + 1) := by
    have hone : 1 ≤ base ^ (2 * depth + 1) := Nat.one_le_pow _ _ (by omega)
    rw [Nat.succ_mul]
    omega
  calc n * (n + 1) + n
      < (n + 1) * (n + 1) := by rw [Nat.succ_mul]; omega
    _ ≤ ((count + 1) * base ^ (2 * depth + 1)) * ((count + 1) * base ^ (2 * depth + 1)) :=
      Nat.mul_le_mul hsucc hsucc
    _ = (count + 1) ^ 2 * base ^ (4 * depth + 2) := by
      rw [Nat.mul_mul_mul_comm, ← Nat.pow_add, ← Nat.pow_two]
      congr 2
      omega
    _ ≤ (count + 1) ^ 2 * base ^ (4 * depth + 16) :=
      Nat.mul_le_mul_left _ (Nat.pow_le_pow_right (by omega) (by omega))

end Realm

/-! ## Stores -/

namespace Corpus

variable {c : Corpus} {references : List Reference}

/-- The extent of all that a conversion can meet. -/
def extent (c : Corpus) (references : List Reference) : Extent :=
  Conversion.extentOf c.store c.root c.rootAddress references

/-- What a conversion can meet among the documents of a store. -/
def realm (c : Corpus) (references : List Reference) : Realm where
  root := c.root
  rootAddress := c.rootAddress
  entries := c.store.documents.entries
  found := c.store.documents.keys
  references := references
  further := 0
  found_le := Nat.le_of_eq (List.length_map Prod.fst)

theorem mem_of_find? {address : String} {document : Json}
    (h : c.store.documents.find? address = some document) :
    address ∈ (c.realm references).addresses ∧ document ∈ (c.realm references).documents := by
  have hmem := SortedMap.find?_eq_some_iff.1 h
  exact ⟨List.mem_cons_of_mem _ (List.mem_map.2 ⟨_, hmem, rfl⟩),
    List.mem_cons_of_mem _ (List.mem_map.2 ⟨_, hmem, rfl⟩)⟩

end Corpus

end ShapeGraph
