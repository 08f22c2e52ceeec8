import ShapeGraph.Proofs.Lockstep
import ShapeGraph.Proofs.SingleDocument

/-!
# Definitions that are listed and definitions that are found

The definitions of a document are listed by their names, whatever they are.  A reference to a definition
is only followed if the definition is an object.  So where all definitions are objects, each one that is
listed is found, and a run that includes them does not fail for want of any of them.

## Main definitions

* `Conversion.ComesTo` — the progress in which a run comes to a named reference.

## Main results

* `Place.lookup_definition` — where the reference to a definition leads.
* `Conversion.convertTopLevel_definition` — the conversion of a definition is that of its schema.
* `definitionRefs_resolve` — definitions that are objects are found, and cause no failure but their own.
* `not_forall_definitionRefs_resolve` — a definition that is a boolean is listed but not found.

## Design

A run fails where one of its named references does.  The names of definitions are the keys of the object
`definitions` as they are; they are never read as text of a pointer.
-/

set_option autoImplicit false

namespace ShapeGraph

/-- The definition of a name in a document, whatever it is. -/
def Json.definition? (document : Json) (name : String) : Option Json :=
  (document.get? "definitions").bind (Json.get? name)

/-- The reference to a definition. -/
def Reference.toDefinition (address name : String) : Reference :=
  (Reference.root address).push (.definition name)

/-! ## References to definitions -/

/-- The reference to a definition leads to it if it is an object, and else nowhere. -/
theorem Place.lookup_definition (document : Json) (address name : String) :
    (Place.ofDocument address document).lookup (.toDefinition address name) =
      match (document.definition? name).filter Json.isObject with
      | some schema => .ok ⟨document, schema, .toDefinition address name⟩
      | none => .error (.missingDefinition name (.root address)) := by
  change Place.walk _ (Place.ofDocument address document) (.definition name) >>= pure = _
  rw [bind_pure]
  rfl

/-- A definition that is listed is referred to by its name. -/
theorem exists_of_find?_definitionRefs {document : Json} {address name : String}
    {reference : Reference} (h : (definitionRefs document address).find? name = some reference) :
    reference = .toDefinition address name ∧ ∃ schema, document.definition? name = some schema := by
  rw [find?_definitionRefs] at h
  obtain ⟨schema, hschema, hreference⟩ := Option.map_eq_some_iff.1 h
  exact ⟨hreference.symm, schema, hschema⟩

/-- What is converted is an entry point or a definition. -/
theorem mem_topLevelRefs {document : Json} {address : String}
    {entryPoints : SortedMap String Reference} {entry : String × Reference}
    (h : entry ∈ (topLevelRefs document address entryPoints true).entries) :
    entry ∈ entryPoints.entries ∨
      (definitionRefs document address).find? entry.1 = some entry.2 := by
  have hfind := SortedMap.find?_eq_some_iff.2 h
  unfold topLevelRefs at hfind
  rw [if_pos rfl, SortedMap.find?_insertAll, Option.or_eq_some_iff] at hfind
  rcases hfind with hpoint | ⟨-, hdefinition⟩
  · obtain ⟨before, after, hentries, -⟩ := List.lookup_eq_some_iff.1 hpoint
    refine Or.inl (List.mem_reverse.1 ?_)
    rw [hentries]
    simp
  · exact Or.inr hdefinition

/-! ## Failures of runs -/

namespace Conversion

variable {σ α β : Type}

/-- A failure is the failure of the conversion itself. -/
theorem Meets.fails (x : Conversion σ α) (s : Progress σ) :
    Meets x s (fun _ _ => True) fun e s' => x s = .error e s' := by
  unfold Meets
  cases hx : x s with
  | ok a s' => trivial
  | error e s' => rfl

/-- One conversion after another fails where one of them does, after those before it have succeeded. -/
theorem exists_of_forM_eq_error {l : List β} {f : β → Conversion σ Unit} {s s' : Progress σ}
    {e : Failure} (h : l.forM f s = .error e s') :
    ∃ before b after s₁, l = before ++ b :: after ∧ before.forM f s = .ok () s₁ ∧
      f b s₁ = .error e s' := by
  induction l generalizing s with
  | nil => cases h
  | cons a rest ih =>
    unfold List.forM at h
    cases hfirst : f a s with
    | error e₁ t =>
      rw [bind_eq_of_error hfirst] at h
      cases h
      exact ⟨[], a, rest, s, rfl, rfl, hfirst⟩
    | ok u t =>
      rw [bind_eq_of_ok hfirst] at h
      obtain ⟨before, b, after, s₁, rfl, hbefore, hb⟩ := ih h
      refine ⟨a :: before, b, after, s₁, rfl, ?_, hb⟩
      unfold List.forM
      rw [bind_eq_of_ok hfirst]
      exact hbefore

variable [DocumentSource σ]

/-- Converting a definition that is an object means converting its schema: it is found without any effect
and under its own path. -/
theorem convertTopLevel_definition {document schema : Json} {address name : String}
    (hschema : document.definition? name = some schema) (hobject : schema.isObject = true)
    (limit : Option Nat) (extent : Extent) :
    (convertTopLevel limit extent document address name (.toDefinition address name) :
        Conversion σ Unit) =
      convertAt limit extent ⟨document, schema, .toDefinition address name⟩ (.inferred name) 0 >>=
        fun t => onGraph fun g => ((), g.addTopLevel name t) := by
  have hlookup := Place.lookup_definition document address name
  rw [hschema, Option.filter_some_pos hobject] at hlookup
  have hplace : (topLevelPlace document address (.toDefinition address name) : Conversion σ Place) =
      pure ⟨document, schema, .toDefinition address name⟩ := by
    unfold topLevelPlace
    exact (if_pos rfl).trans (congrArg ofResult hlookup)
  unfold convertTopLevel
  rw [hplace, pure_bind]

/-- A run that starts with `s` has converted all named references before the one at hand, and comes to it with
`s₁`. -/
def ComesTo (limit : Option Nat) (root : Json) (rootAddress : String)
    (topLevels : SortedMap String Reference) (s : Progress σ) (extent : Extent)
    (entry : String × Reference) (s₁ : Progress σ) : Prop :=
  extent = extentOf s.documents root rootAddress (topLevels.entries.map Prod.snd) ∧
    ∃ before after, topLevels.entries = before ++ entry :: after ∧
      (before.forM fun e => convertTopLevel limit extent root rootAddress e.1 e.2) s = .ok () s₁

/-- A run that fails does so at the named reference that it has come to. -/
theorem exists_comesTo {limit : Option Nat} {root : Json} {rootAddress : String}
    {topLevels : SortedMap String Reference} {s s' : Progress σ} {e : Failure}
    (h : convertAll limit root rootAddress topLevels s = .error e s') :
    ∃ extent entry s₁, ComesTo limit root rootAddress topLevels s extent entry s₁ ∧
      convertTopLevel limit extent root rootAddress entry.1 entry.2 s₁ = .error e s' := by
  obtain ⟨before, entry, after, s₁, hentries, hbefore, hentry⟩ := exists_of_forM_eq_error h
  exact ⟨_, entry, s₁, ⟨rfl, before, after, hentries, hbefore⟩, hentry⟩

theorem ComesTo.mem {limit : Option Nat} {root : Json} {rootAddress : String}
    {topLevels : SortedMap String Reference} {s s₁ : Progress σ} {extent : Extent}
    {entry : String × Reference} (h : ComesTo limit root rootAddress topLevels s extent entry s₁) :
    entry ∈ topLevels.entries := by
  obtain ⟨-, before, after, hentries, -⟩ := h
  rw [hentries]
  exact List.mem_append_right _ List.mem_cons_self

omit [DocumentSource σ] in
/-- Registering a node under a name never fails. -/
theorem eq_error_of_andThen_onGraph {x : Conversion σ α} {f : α → TypeGraph → β × TypeGraph}
    {s s' : Progress σ} {e : Failure} (h : (x >>= fun a => onGraph (f a)) s = .error e s') :
    x s = .error e s' := by
  have hmeets : Meets (x >>= fun a => onGraph (f a)) s (fun _ _ => True)
      fun e s' => x s = .error e s' :=
    (Meets.fails x s).seq fun _ _ _ => Meets.onGraph trivial
  exact hmeets.of_eq_error h

end Conversion

/-! ## Main results -/

/-- Where all definitions of a document are objects,

* the reference to each definition that is listed leads from the root of the document to exactly that
  definition, under its own path;
* a run that includes the definitions and fails does so at the named reference that it has come to: either
  this is one of the entry points, or it is that to a definition, and then the run fails in converting the
  schema of the definition, never in looking for it. -/
theorem definitionRefs_resolve {document : Json} (address : String)
    (hobjects : ∀ name schema, document.definition? name = some schema → schema.isObject = true) :
    (∀ name reference, (definitionRefs document address).find? name = some reference →
      ∃ schema, document.definition? name = some schema ∧
        (Place.ofDocument address document).lookup reference = .ok ⟨document, schema, reference⟩) ∧
    ∀ (σ : Type) [DocumentSource σ] (limit : Option Nat) (entryPoints : SortedMap String Reference)
      (s s' : Progress σ) (e : Failure),
      Conversion.convertAll limit document address (topLevelRefs document address entryPoints true) s =
          .error e s' →
        ∃ extent entry s₁, Conversion.ComesTo limit document address
            (topLevelRefs document address entryPoints true) s extent entry s₁ ∧
          ((entry ∈ entryPoints.entries ∧
            Conversion.convertTopLevel limit extent document address entry.1 entry.2 s₁ =
              .error e s') ∨
          ∃ schema, document.definition? entry.1 = some schema ∧
            entry.2 = .toDefinition address entry.1 ∧
            Conversion.convertAt limit extent ⟨document, schema, entry.2⟩ (.inferred entry.1) 0 s₁ =
              .error e s') := by
  constructor
  · intro name reference h
    obtain ⟨rfl, schema, hschema⟩ := exists_of_find?_definitionRefs h
    refine ⟨schema, hschema, ?_⟩
    rw [Place.lookup_definition, hschema, Option.filter_some_pos (hobjects name schema hschema)]
  · intro σ _ limit entryPoints s s' e hrun
    obtain ⟨extent, ⟨name, reference⟩, s₁, hcomes, hfails⟩ := Conversion.exists_comesTo hrun
    refine ⟨extent, (name, reference), s₁, hcomes, ?_⟩
    dsimp only at hfails ⊢
    rcases mem_topLevelRefs hcomes.mem with hpoint | hdefinition
    · exact Or.inl ⟨hpoint, hfails⟩
    · dsimp only at hdefinition
      obtain ⟨rfl, schema, hschema⟩ := exists_of_find?_definitionRefs hdefinition
      rw [Conversion.convertTopLevel_definition hschema (hobjects name schema hschema)] at hfails
      exact Or.inr ⟨schema, hschema, rfl, Conversion.eq_error_of_andThen_onGraph hfails⟩

/-- A document with one definition, whose name holds the characters that pointers give a meaning to. -/
def slashDocument (definition : Json) : Json :=
  .obj [("definitions", .obj [("a/b~#", definition)])]

theorem definition?_slashDocument (definition : Json) (name : String) :
    (slashDocument definition).definition? name =
      if name = "a/b~#" then some definition else none := by
  change List.lookup name [("a/b~#", definition)] = _
  by_cases h : name = "a/b~#"
  · simp [h]
  · have hne : (name == "a/b~#") = false := by simpa using h
    rw [List.lookup_cons, hne, if_neg h]
    rfl

/-- The definition is found.  Its type is unknown, so a run that includes it fails, and it does so in
converting the schema that has been found, with which it starts. -/
theorem definitionRefs_resolve_slash :
    let schema := Json.obj [("type", .str "unknown")]
    let document := slashDocument schema
    (Place.ofDocument "a.json" document).lookup (.toDefinition "a.json" "a/b~#") =
        .ok ⟨document, schema, .toDefinition "a.json" "a/b~#"⟩ ∧
      ∃ (e : Failure) (extent : Extent) (s' : Progress MemoryStore), Conversion.convertAt (some 8)
        extent ⟨document, schema, .toDefinition "a.json" "a/b~#"⟩ (.inferred "a/b~#") 0
          (Progress.start MemoryStore.empty) = .error e s' := by
  intro schema document
  have hobjects : ∀ name found, document.definition? name = some found → found.isObject = true := by
    intro name found hfound
    rw [definition?_slashDocument] at hfound
    split at hfound
    · cases hfound
      rfl
    · cases hfound
  obtain ⟨hresolves, hfails⟩ := definitionRefs_resolve "a.json" hobjects
  have hsucceeds : Conversion.succeeds (Conversion.convertAll (some 8) document "a.json"
      (topLevelRefs document "a.json" ∅ true)) (Progress.start MemoryStore.empty) = false := by
    decide +kernel
  obtain ⟨e, s', hrun⟩ := Conversion.exists_eq_error hsucceeds
  refine ⟨?_, ?_⟩
  · obtain ⟨found, hfound, hlookup⟩ := hresolves "a/b~#" (.toDefinition "a.json" "a/b~#") rfl
    rw [definition?_slashDocument, if_pos rfl] at hfound
    cases hfound
    exact hlookup
  · obtain ⟨extent, ⟨name, reference⟩, s₁, ⟨-, before, after, hentries, hbefore⟩,
        ⟨hpoint, -⟩ | ⟨found, hfound, hreference, hconvert⟩⟩ :=
      hfails MemoryStore (some 8) ∅ _ s' e hrun
    · cases hpoint
    · -- There is one definition only, so the run has come to it at its start.
      have hsingle : [("a/b~#", .toDefinition "a.json" "a/b~#")] = before ++ (name, reference) :: after :=
        hentries
      obtain ⟨rfl, rfl⟩ : before = [] ∧ after = [] := by
        have hlength := congrArg List.length hsingle
        simp only [List.length_append, List.length_cons, List.length_nil] at hlength
        exact ⟨List.length_eq_zero_iff.1 (by omega), List.length_eq_zero_iff.1 (by omega)⟩
      cases hsingle
      cases hbefore
      rw [definition?_slashDocument, if_pos rfl] at hfound
      cases hfound
      exact ⟨e, extent, s', hconvert⟩

/-- A definition may be a boolean.  Then it is listed but not found. -/
theorem not_forall_definitionRefs_resolve :
    ¬ ∀ (document : Json) (address : String),
      (∀ name schema, document.definition? name = some schema →
        schema.isObject = true ∨ ∃ b, schema = .bool b) →
      ∀ name reference, (definitionRefs document address).find? name = some reference →
        ∃ schema, document.definition? name = some schema ∧
          (Place.ofDocument address document).lookup reference = .ok ⟨document, schema, reference⟩ := by
  intro hresolves
  have hschemas : ∀ name schema, (slashDocument (.bool true)).definition? name = some schema →
      schema.isObject = true ∨ ∃ b, schema = .bool b := by
    intro name schema hschema
    rw [definition?_slashDocument] at hschema
    split at hschema
    · cases hschema
      exact Or.inr ⟨true, rfl⟩
    · cases hschema
  obtain ⟨schema, -, hlookup⟩ := hresolves (slashDocument (.bool true)) "a.json" hschemas "a/b~#"
    (.toDefinition "a.json" "a/b~#") rfl
  cases hlookup

end ShapeGraph
