import ShapeGraph.Proofs.Sessions

/-!
# Trying again after a failure

A failure undoes nothing.  The path of a schema stands for its node before the schemas inside it are
converted, so when one of these fails, the path goes on to stand for a node that has no members and
will never get any.  A run that is repeated finds this node and succeeds with it.

## Main definitions

* `Progress.HalfBuilt` — a path stands for an intersection that waits for its members.

## Main results

* `Conversion.convertSchema_halfBuilt` — a schema that cannot be converted is left half-built.
* `Conversion.convertAll_retry` — when the run for a schema fails, the same run succeeds the second
  time and names a node without members.

## Design

That the node stays without members is kept like anything else that conversions leave alone: all other
nodes are in custody, and this one is not.
-/

set_option autoImplicit false

namespace ShapeGraph

/-- The path stands for an intersection that waits for its members. -/
def Progress.HalfBuilt {σ : Type} (s : Progress σ) (path : Reference) : Prop :=
  ∃ t, s.nodeOf? path = some t ∧ s.graph.shape? t = some (.combination .intersection none)

namespace Conversion

open Progress

section Places

variable {σ α : Type} [DocumentSource σ]

/-- A path goes on to stand for an intersection without members, as long as members are set for other
nodes only. -/
theorem unset_steady (path : Reference) (t : NodeId) :
    Steady (σ := σ) (fun s => s.nodeOf? path = some t ∧
      s.graph.shape? t = some (.combination .intersection none)) (· ≠ t) where
  interned s shape _ := by
    rintro ⟨hpath, ht⟩
    refine ⟨hpath, ?_⟩
    unfold TypeGraph.intern
    split
    · exact ht
    · exact TypeGraph.keeps_allocate s.graph shape t _ ht
  declared s operation := by
    rintro ⟨hpath, ht⟩
    refine ⟨?_, hpath, TypeGraph.keeps_allocate s.graph _ t _ ht⟩
    exact (Nat.ne_of_lt (TypeGraph.lt_length_of_shape? ht)).symm
  filled s u members hne := by
    rintro ⟨hpath, ht⟩
    refine ⟨hpath, ?_⟩
    dsimp only
    rw [TypeGraph.shape?_replaceMembers_of_ne s.graph hne.symm]
    exact ht
  attributed s u attributes := by
    rintro ⟨hpath, ht⟩
    exact ⟨hpath, (TypeGraph.shape?_addAttributes s.graph u t attributes).trans ht⟩
  bindPath s other u := by
    rintro ⟨hpath, ht⟩ hother
    exact ⟨bound_bind hother u hpath, ht⟩
  allows _ _ := trivial
  chained _ _ hs := hs
  fetched _ _ hs := hs

/-- A schema that cannot be converted is left half-built.  Once its members are known, nothing fails
any more, and its path stands for its node. -/
theorem convertSchema_halfBuilt {recur : Converter σ} {place : Place} {s : Progress σ}
    (hrec : ∀ t child names, Preserves (fun s => s.nodeOf? place.path = some t ∧
      s.graph.shape? t = some (.combination .intersection none)) (fun _ => True) (recur child names))
    (hfree : s.nodeOf? place.path = none) (attributes : Attributes) :
    Meets (convertSchema recur place attributes) s (fun t s' => s'.nodeOf? place.path = some t)
      (fun _ s' => s'.HalfBuilt place.path) := by
  rw [convertSchema_eq]
  refine Meets.andThen (Meets.onGraph (Meets.andThen
    (Meets.bind (fun _ => ?_) fun other hother => ?_)))
  · -- From here on the path stands for the node, which gets its members only in the end.
    have hsteady := unset_steady (σ := σ) place.path s.graph.nodes.length
    have hinner : ∀ child, place.Inner child → _ := fun child _ => hrec s.graph.nodes.length child
    have hmembers := schemaMembers_preserves hsteady.toCustody hinner attributes
    refine Meets.seq ((hmembers _ ⟨?_, ?_⟩).mono (fun _ _ h => h) fun _ _ h => ⟨_, h.1⟩) ?_
    · exact (nodeOf?_bind _ place.path place.path _).trans (if_pos rfl)
    · exact (TypeGraph.shape?_allocate s.graph _ _).trans (if_pos rfl)
    · rintro members s₁ ⟨hpath, ht⟩
      refine Meets.andThen (Meets.setMembers ?_ (Meets.andThen (Meets.addAttributes ?_)))
      · exact (congrArg (Option.any Shape.isCombination) ht).trans rfl
      · exact hpath
  · change s.nodeOf? place.path = some other at hother
    rw [hfree] at hother
    cases hother

/-- A place that cannot be converted is left half-built, if it is a schema whose path stands for
nothing yet. -/
theorem toType_halfBuilt {place : Place} (hschema : place.IsSchema) {s : Progress σ}
    (hfree : s.nodeOf? place.path = none) (limit budget : Nat) (hints : Names) :
    Meets (toType limit (budget + 1) place hints) s (fun _ _ => True)
      (fun _ s' => s'.HalfBuilt place.path) := by
  have hfragment : Meets (convertFragment (toType limit budget) place hints) { s with chain := [] }
      (fun t s' => s'.nodeOf? place.path = some t) (fun _ s' => s'.HalfBuilt place.path) := by
    rw [convertFragment_of_isSchema _ hints hschema]
    have hrec := fun t => toType_preserves (unset_steady (σ := σ) place.path t) limit budget
    exact convertSchema_halfBuilt (s := { s with chain := [] }) hrec hfree _
  have href : place.fragment.has "$ref" = false := Json.has_eq_false_iff.2 hschema.no_reference
  refine Meets.andThen (Meets.bound? ?_)
  rw [hfree]
  dsimp only
  rw [convertPlace_eq, href]
  have hchained : Meets (withChain [] (convertFragment (toType limit budget) place hints)) s
      (fun t s' => s'.nodeOf? place.path = some t) (fun _ s' => s'.HalfBuilt place.path) :=
    Meets.withChain (hfragment.mono (fun _ _ h => h) fun _ _ h => h)
  refine hchained.seq fun t s₁ ht => ?_
  refine Meets.andThen (Meets.bind (fun hnone => ?_) fun other hother => ?_)
  · rw [hnone] at ht
    cases ht
  · rw [ht] at hother
    exact ⟨(Option.some.inj hother).symm, trivial⟩

end Places

/-! ## Runs -/

variable {root : Json} {rootAddress : String} {s : Progress MemoryStore}

/-- A reference that leads to a place is followed without any effect. -/
theorem topLevelPlace_of_entry {reference : Reference} {place : Place}
    (hentry : Corpus.entry? ⟨root, rootAddress, s.documents⟩ reference = some place) :
    Meets (topLevelPlace root rootAddress reference) s (fun found s' => found = place ∧ s' = s)
      fun _ _ => False := by
  obtain ⟨document, hdocument, hlookup⟩ := Option.bind_eq_some_iff.1 hentry
  unfold topLevelPlace
  refine Meets.document (c := ⟨root, rootAddress, s.documents⟩) rfl (fun found hfound => ?_)
    fun hmissing => ?_
  · rw [hdocument] at hfound
    cases hfound
    dsimp only
    rw [Corpus.eq_ok_of_toOption hlookup]
    exact Meets.pure ⟨rfl, rfl⟩
  · rw [hdocument] at hmissing
    cases hmissing

/-- There is always some level left at the start of a run. -/
theorem exists_levelsLeft (limit : Option Nat) (extent : Extent) :
    ∃ budget, levelsLeft limit extent 0 = budget + 1 := by
  refine Nat.exists_eq_add_one_of_ne_zero (Nat.pos_iff_ne_zero.1 ?_)
  unfold levelsLeft
  cases limit with
  | some l => exact Nat.succ_pos l
  | none => exact Nat.mul_pos (Nat.pow_pos (Nat.succ_pos _)) (Nat.pow_pos (Nat.succ_pos _))

variable {limit : Option Nat} {name : String} {reference : Reference} {place : Place}

/-- At the start of a run there is a level for the schema at a place, whatever becomes of those inside
it. -/
theorem convertAt_halfBuilt (hschema : place.IsSchema) (hfree : s.nodeOf? place.path = none)
    (extent : Extent) (hints : Names) :
    Meets (convertAt limit extent place hints 0) s (fun _ _ => True)
      (fun _ s' => s'.HalfBuilt place.path) := by
  obtain ⟨budget, hbudget⟩ := exists_levelsLeft limit extent
  unfold convertAt
  rw [hbudget]
  exact toType_halfBuilt hschema hfree _ budget hints

/-- A run for a single reference that leads to a schema fails only after it has left it half-built. -/
theorem convertAll_halfBuilt
    (hentry : Corpus.entry? ⟨root, rootAddress, s.documents⟩ reference = some place)
    (hschema : place.IsSchema) (hfree : s.nodeOf? place.path = none) :
    Meets (convertAll limit root rootAddress ((∅ : SortedMap String Reference).insert name reference))
      s (fun _ _ => True) (fun _ s' => s'.HalfBuilt place.path) := by
  refine Meets.andThen (Meets.get (Meets.andThen ?_))
  unfold convertTopLevel
  refine Meets.seq ((topLevelPlace_of_entry hentry).mono (fun _ _ h => h) fun _ _ h => h.elim) ?_
  rintro found s₁ ⟨rfl, rfl⟩
  refine (convertAt_halfBuilt hschema hfree _ _).seq fun t s₂ _ => ?_
  exact Meets.onGraph (Meets.pure trivial)

/-- A run for a single reference whose path stands for a node names that node and does nothing else. -/
theorem convertAll_of_bound
    (hentry : Corpus.entry? ⟨root, rootAddress, s.documents⟩ reference = some place) {t : NodeId}
    (ht : s.nodeOf? place.path = some t) :
    Meets (convertAll limit root rootAddress ((∅ : SortedMap String Reference).insert name reference))
      s (fun _ s' => s' = { s with graph := s.graph.addTopLevel name t }) (fun _ _ => False) := by
  refine Meets.andThen (Meets.get (Meets.andThen ?_))
  unfold convertTopLevel
  refine (topLevelPlace_of_entry hentry).seq ?_
  rintro found s₁ ⟨rfl, rfl⟩
  refine (convertAt_of_bound ht limit _ _ 0).seq ?_
  rintro _ _ ⟨rfl, rfl⟩
  exact Meets.onGraph (Meets.pure rfl)

/-- When the run for a schema fails whose path has stood for nothing before, the same run succeeds the
second time, with nothing changed in between.  It names an intersection without members. -/
theorem convertAll_retry
    (hentry : Corpus.entry? ⟨root, rootAddress, s.documents⟩ reference = some place)
    (hschema : place.IsSchema) (hfree : s.nodeOf? place.path = none) {e : Failure}
    {s' : Progress MemoryStore}
    (hfails : convertAll limit root rootAddress
      ((∅ : SortedMap String Reference).insert name reference) s = .error e s') :
    ∃ s'', convertAll limit root rootAddress
        ((∅ : SortedMap String Reference).insert name reference) s' = .ok () s'' ∧
      ∃ t, s''.graph.topLevels.find? name = some t ∧
        s''.graph.shape? t = some (.combination .intersection none) := by
  obtain ⟨t, hpath, ht⟩ := (convertAll_halfBuilt hentry hschema hfree).of_eq_error hfails
  have hdocuments : s'.documents = s.documents := by
    have hsteady : Steady (fun s₁ : Progress MemoryStore => s₁.documents = s.documents)
        (fun _ => True) :=
      ⟨⟨fun _ _ _ h => h, fun _ _ h => ⟨trivial, h⟩, fun _ _ _ _ h => h, fun _ _ _ h => h,
        fun _ _ _ h _ => h, fun _ _ => trivial⟩, fun _ _ h => h, fun _ _ h => h⟩
    exact ((convertAll_preserves hsteady (fun _ _ _ h => h) limit root rootAddress _ s
      rfl).of_eq_error hfails).1
  rw [← hdocuments] at hentry
  have hagain : Meets (convertAll limit root rootAddress
      ((∅ : SortedMap String Reference).insert name reference)) s'
      (fun _ s'' => s'' = { s' with graph := s'.graph.addTopLevel name t }) fun _ _ => False :=
    convertAll_of_bound hentry hpath
  obtain ⟨_, s'', hrun, rfl⟩ := hagain.exists_eq_ok
  refine ⟨_, hrun, t, ?_, ht⟩
  exact (s'.graph.find?_addTopLevel name name t).trans (if_pos rfl)

/-- A schema of a type that does not exist. -/
def unknownType : Json := .obj [("type", .str "unknown")]

/-- The root of that schema. -/
def unknownTypeEntry : SortedMap String Reference :=
  (∅ : SortedMap String Reference).insert "Root" (.root "root.json")

/-- The run for a type that does not exist fails, and succeeds when it is repeated. -/
theorem convertAll_retry_unknownType :
    ∃ e s' s'', convertAll defaultLimit unknownType "root.json" unknownTypeEntry
        (Progress.start MemoryStore.empty) = .error e s' ∧
      convertAll defaultLimit unknownType "root.json" unknownTypeEntry s' = .ok () s'' ∧
        ∃ t, s''.graph.topLevels.find? "Root" = some t ∧
          s''.graph.shape? t = some (.combination .intersection none) := by
  have hentry : Corpus.entry? ⟨unknownType, "root.json", MemoryStore.empty⟩ (.root "root.json") =
      some (.ofDocument "root.json" unknownType) := rfl
  have hschema : (Place.ofDocument "root.json" unknownType).IsSchema := ⟨⟨_, rfl⟩, rfl, rfl⟩
  have hfails : succeeds (convertAll defaultLimit unknownType "root.json" unknownTypeEntry)
      (Progress.start MemoryStore.empty) = false := by decide +kernel
  obtain ⟨e, s', hrun⟩ := exists_eq_error hfails
  obtain ⟨s'', hretry, t, hname, ht⟩ := convertAll_retry hentry hschema rfl hrun
  exact ⟨e, s', s'', hrun, hretry, t, hname, ht⟩

/-- It is not so that in every session a run that fails would fail again when it is repeated. -/
theorem not_forall_fails_again :
    ¬ ∀ (limit : Option Nat) (s : Progress MemoryStore), Session.CanReach limit s →
      ∀ (root : Json) (rootAddress : String) (topLevels : SortedMap String Reference),
        succeeds (convertAll limit root rootAddress topLevels) s = false →
          succeeds (convertAll limit root rootAddress topLevels)
            (progressAfter (convertAll limit root rootAddress topLevels) s) = false := by
  intro h
  have hstart : Session.CanReach defaultLimit (Progress.start MemoryStore.empty) :=
    ⟨.empty, MemoryStore.empty, .empty, Relation.ReflTransGen.refl⟩
  have hagain := h defaultLimit _ hstart unknownType "root.json" unknownTypeEntry (by decide +kernel)
  have hsucceeds : succeeds (convertAll defaultLimit unknownType "root.json" unknownTypeEntry)
      (progressAfter (convertAll defaultLimit unknownType "root.json" unknownTypeEntry)
        (Progress.start MemoryStore.empty)) = true := by decide +kernel
  rw [hsucceeds] at hagain
  cases hagain

end Conversion

end ShapeGraph
