import ShapeGraph.Proofs.Membership
import ShapeGraph.Proofs.Runs

/-!
# Single documents

The graph of a single document comes from a run over a store that has nothing but the document.  Its
root is converted under a name and, if wanted, so are its definitions under theirs.

## Main definitions

* `Corpus.single` — a document, which is in the store under its address.
* `documentRefs` — the root of a document and perhaps its definitions, by name.

## Main results

* `find?_documentRefs` — which places of a document are converted.
* `Corpus.definition_of_entry` — where the reference to a definition leads.
* `Conversion.exists_run_of_schemaGraph` — a graph of a document comes from a run.
-/

set_option autoImplicit false

namespace ShapeGraph

/-! ## What is converted -/

/-- In a list of values that only depend on their keys, it does not matter which one of a key counts. -/
theorem lookup_reverse_map_key {κ β γ : Type} [BEq κ] [LawfulBEq κ] (f : κ → γ) (l : List (κ × β))
    (x : κ) : (l.map fun e => (e.1, f e.1)).reverse.lookup x = (l.lookup x).map fun _ => f x := by
  induction l with
  | nil => rfl
  | cons e rest ih =>
    obtain ⟨k, v⟩ := e
    rw [List.map_cons, List.reverse_cons, List.lookup_append, ih]
    by_cases h : x = k
    · subst h
      cases rest.lookup x <;> simp
    · have hne : (x == k) = false := by simpa using h
      simp [List.lookup_cons, hne]

/-- The reference to a definition. -/
theorem find?_definitionRefs (document : Json) (address name : String) :
    (definitionRefs document address).find? name =
      ((document.get? "definitions").bind (Json.get? name)).map fun _ =>
        (Reference.root address).push (.definition name) := by
  unfold definitionRefs
  cases document.get? "definitions" with
  | none => rfl
  | some definitions =>
    cases definitions with
    | obj members =>
      refine (SortedMap.find?_insertAll ∅ _ name).trans ?_
      rw [lookup_reverse_map_key fun n => (Reference.root address).push (.definition n)]
      exact Option.or_none
    | null | bool _ | num _ | str _ | arr _ => rfl

/-- The root of a document and, if wanted, its definitions, by name. -/
def documentRefs (document : Json) (address : String) (includeDefinitions : Bool)
    (rootName : String) : SortedMap String Reference :=
  topLevelRefs document address ((∅ : SortedMap String Reference).insert rootName (.root address))
    includeDefinitions

section Documents

variable {document : Json} {address rootName : String} {includeDefinitions : Bool}

/-- The root takes the place of a definition of its name. -/
theorem find?_documentRefs (name : String) :
    (documentRefs document address includeDefinitions rootName).find? name =
      if name = rootName then some (.root address)
      else if includeDefinitions then (definitionRefs document address).find? name else none := by
  unfold documentRefs topLevelRefs
  rw [SortedMap.find?_insertAll]
  change Option.or (List.lookup name [(rootName, Reference.root address)]) _ = _
  by_cases h : name = rootName
  · simp [h]
  · have hne : (name == rootName) = false := by simpa using h
    rw [List.lookup_cons, hne, if_neg h]
    cases includeDefinitions <;> rfl

/-- The references to the root and to definitions can be followed. -/
theorem isReadable_documentRefs {e : String × Reference}
    (he : e ∈ (documentRefs document address includeDefinitions rootName).entries) :
    e.2.IsReadable := by
  have hfind := SortedMap.find?_eq_some_iff.2 he
  rw [find?_documentRefs] at hfind
  split at hfind
  · rw [← Option.some.inj hfind]
    exact fun step hstep => by rw [List.mem_singleton.1 hstep]; rfl
  · split at hfind
    · rw [find?_definitionRefs] at hfind
      obtain ⟨schema, -, heq⟩ := Option.map_eq_some_iff.1 hfind
      rw [← heq]
      intro step hstep
      rcases List.mem_append.1 hstep with hstep | hstep
      · rw [List.mem_singleton.1 hstep]
        rfl
      · rw [List.mem_singleton.1 hstep]
        rfl
    · cases hfind

end Documents

/-! ## The store -/

namespace Corpus

variable {document : Json} {address : String}

/-- A document, which is in the store under its address. -/
def single (document : Json) (address : String) : Corpus where
  root := document
  rootAddress := address
  store := ⟨(∅ : SortedMap String Json).insert address document⟩

theorem single_consistent (document : Json) (address : String) :
    (single document address).Consistent := by
  intro found hfound
  have hstore : (single document address).store.documents.find? address = some document :=
    (SortedMap.find?_insert ∅ address address document).trans (if_pos rfl)
  exact Option.some.inj (hfound.symm.trans hstore)

/-- The reference to a definition leads to it, if it is an object. -/
theorem definition_of_entry {name : String} {place : Place}
    (h : entry? (single document address) ((Reference.root address).push (.definition name)) =
      some place) :
    ∃ schema, (document.get? "definitions").bind (Json.get? name) = some schema ∧
      schema.isObject = true ∧
        place = ⟨document, schema, (Reference.root address).push (.definition name)⟩ := by
  unfold entry? at h
  obtain ⟨found, hfound, hlookup⟩ := Option.bind_eq_some_iff.1 h
  obtain rfl : document = found := Option.some.inj ((if_pos rfl).symm.trans hfound)
  replace hlookup := eq_ok_of_toOption hlookup
  change Place.walk _ ⟨document, document, .root address⟩ (.definition name) >>= pure = _ at hlookup
  rw [bind_pure] at hlookup
  unfold Place.walk at hlookup
  dsimp only at hlookup
  split at hlookup
  · next schema hschema =>
    obtain ⟨hmem, hobject⟩ := Option.filter_eq_some_iff.1 hschema
    cases hlookup
    exact ⟨schema, hmem, hobject, rfl⟩
  · cases hlookup

end Corpus

/-! ## Graphs -/

/-- A graph of a document is what a run leaves behind. -/
theorem Conversion.exists_run_of_schemaGraph {document : Json} {address rootName : String}
    {limit : Option Nat} {includeDefinitions : Bool} {g : TypeGraph}
    (h : schemaGraph document address limit includeDefinitions rootName = .ok g) :
    ∃ s, convertAll limit document address
        (documentRefs document address includeDefinitions rootName)
        (Progress.start (Corpus.single document address).store) = .ok () s ∧ s.graph = g := by
  unfold schemaGraph at h
  obtain ⟨store, hstore, h⟩ := exists_of_bind_eq_ok h
  unfold MemoryStore.insert at hstore
  obtain ⟨_, -, hstore⟩ := exists_of_bind_eq_ok hstore
  cases hstore
  dsimp only at h
  split at h
  · next progress hrun => exact ⟨progress, hrun, Except.ok.inj h⟩
  · cases h

end ShapeGraph
