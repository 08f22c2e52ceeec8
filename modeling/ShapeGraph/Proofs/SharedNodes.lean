import ShapeGraph.Proofs.PlacesInStep
import ShapeGraph.Proofs.Sessions
import ShapeGraph.Proofs.Sharing

/-!
# Shared nodes have no attributes

The nodes of primitive types, arrays and maps are shared by all schemas that ask for such a type, however
unrelated they are.  What one schema says of itself must not be attached to them, since it would then be
said of the others, too.  It goes to enums, classes, unions and intersections only.

## Main definitions

* `TypeGraph.Plain` — nodes to which attributes may not be attached have none.
* `Conversion.keepsPlain` — the coupling of a conversion with itself, as long as the graph is plain.

## Main results

* `TypeGraph.Plain.of_keepsOutlines` — a graph stays plain when neither attributes nor shapes change, apart
  from members.
* `Conversion.convertOne_plain`, `Conversion.convertAll_plain` — conversions keep graphs plain, also when
  they fail.
* `Session.bare_of_later` — in no session do shared nodes get attributes.

## Design

That attributes are attached to the right nodes is a matter of what a node is at that moment.  A union or
intersection gets them only after all schemas inside have been converted, and it is still one by then;
hence conversions are followed in step with themselves, where this is known of loose nodes.
-/

set_option autoImplicit false

namespace ShapeGraph

/-- Setting members does not change whether attributes may be attached. -/
theorem Shape.takesAttributes_of_outline_eq {shape other : Shape}
    (h : other.outline = shape.outline) : other.takesAttributes = shape.takesAttributes := by
  cases shape <;> cases other <;> simp_all [outline, takesAttributes]

/-! ## Plain graphs -/

namespace TypeGraph

variable {g h : TypeGraph}

/-- The index of shapes is right, and nodes to which attributes may not be attached have none. -/
structure Plain (g : TypeGraph) : Prop where
  indexed : g.Indexed
  bare : ∀ t shape, g.shape? t = some shape → shape.takesAttributes = false →
    g.attributes t = .empty

namespace Plain

theorem empty : Plain .empty where
  indexed := .empty
  bare _ _ _ _ := attributes_of_le (Nat.zero_le _)

/-- A graph stays plain when neither attributes nor shapes change, apart from members.  New nodes have no
attributes. -/
theorem of_keepsOutlines (hg : g.Plain) (hindexed : h.Indexed) (houtlines : g.KeepsOutlines h)
    (hattributes : ∀ t, h.attributes t = g.attributes t) : h.Plain where
  indexed := hindexed
  bare t shape ht htakes := by
    rw [hattributes]
    by_cases hlt : t < g.nodes.length
    · obtain ⟨old, hold⟩ := exists_shape? hlt
      obtain ⟨other, hother, houtline⟩ := houtlines t old hold
      obtain rfl := Option.some.inj (ht.symm.trans hother)
      exact hg.bare t old hold ((Shape.takesAttributes_of_outline_eq houtline).symm.trans htakes)
    · exact attributes_of_le (Nat.le_of_not_lt hlt)

theorem intern (hg : g.Plain) {shape : Shape} (hshape : shape.isCombination = false) :
    (g.intern shape).2.Plain :=
  hg.of_keepsOutlines (intern_spec hg.indexed hshape).indexed (keeps_intern g shape).keepsOutlines
    (attributes_intern g shape)

theorem declare (hg : g.Plain) (operation : Operation) : (g.declare operation).2.Plain :=
  hg.of_keepsOutlines (declare_spec hg.indexed operation).indexed (keeps_allocate g _).keepsOutlines
    (attributes_allocate g _)

theorem replaceMembers (hg : g.Plain) (t : NodeId) (members : SortedSet NodeId) :
    (g.replaceMembers t members).Plain :=
  hg.of_keepsOutlines (hg.indexed.replaceMembers t members) (keepsOutlines_replaceMembers g t members)
    (attributes_replaceMembers g t members)

/-- Attributes may be attached to nodes of the right shapes. -/
theorem addAttributes (hg : g.Plain) {t : NodeId} {shape : Shape} (ht : g.shape? t = some shape)
    (htakes : shape.takesAttributes = true) (attributes : Attributes) :
    (g.addAttributes t attributes).Plain where
  indexed := hg.indexed.of_retains (keeps_addAttributes g t attributes).retains
    (interned_addAttributes g t attributes)
  bare u other hu hother := by
    rw [shape?_addAttributes] at hu
    have hne : u ≠ t := by
      rintro rfl
      obtain rfl := Option.some.inj (ht.symm.trans hu)
      rw [htakes] at hother
      cases hother
    rw [attributes_addAttributes_of_ne g hne]
    exact hg.bare u other hu hother

theorem addTopLevel (hg : g.Plain) (name : String) (t : NodeId) : (g.addTopLevel name t).Plain :=
  ⟨hg.indexed, hg.bare⟩

end Plain

end TypeGraph

/-! ## Conversions -/

namespace Conversion

variable {σ α : Type}

/-- The progress of a conversion, as long as the graph is plain.  Attributes may be attached to nodes of the
right shapes. -/
def keepsPlain (σ : Type) : Coupling σ where
  relates s s' := s' = s ∧ s.graph.Plain
  fails _ s s' := s' = s ∧ s.graph.Plain
  cuts _ := False
  loose s t := ∃ shape, s.graph.shape? t = some shape ∧ shape.takesAttributes = true

theorem keepsPlain_stable (a : Attributes) : (keepsPlain σ).Stable a a where
  nodeOf?_eq := by
    rintro s _ ⟨rfl, -⟩ path
    rfl
  interned := by
    rintro s _ shape hshape ⟨rfl, hs⟩
    have hspec := TypeGraph.intern_spec hs.indexed hshape
    exact ⟨rfl, ⟨rfl, hs.intern hshape⟩, fun htakes => ⟨shape, hspec.has_shape, htakes⟩⟩
  declared := by
    rintro s _ operation ⟨rfl, hs⟩
    exact ⟨rfl, rfl, hs.declare operation⟩
  filled := by
    rintro s _ t members ⟨rfl, hs⟩
    exact ⟨rfl, rfl, hs.replaceMembers t members⟩
  attributed := by
    rintro s _ t ⟨shape, ht, htakes⟩ ⟨rfl, hs⟩
    exact ⟨rfl, hs.addAttributes ht htakes a⟩
  loose_of_union ht := ⟨_, ht, rfl⟩
  keyed := by
    rintro s _ path t - - ⟨rfl, hs⟩
    exact ⟨rfl, hs⟩
  excuses _ _ _ _ hs := hs

variable [DocumentSource σ]

theorem keepsPlain_uniform : (keepsPlain σ).Uniform True where
  stable h := h trivial ▸ keepsPlain_stable _
  loose_of_intersection ht := ⟨_, ht, rfl⟩
  fails_iff := Iff.rfl
  bound := by
    rintro s _ path t - ⟨rfl, hs⟩
    exact ⟨rfl, hs⟩
  chain_eq := by
    rintro s _ ⟨rfl, -⟩
    rfl
  chained := by
    rintro s _ chain ⟨rfl, hs⟩
    exact ⟨rfl, hs⟩
  fetched := by
    rintro s _ address ⟨rfl, hs⟩
    exact ⟨rfl, rfl, hs⟩

omit [DocumentSource σ] in
/-- A conversion that stays in step with itself keeps the graph plain, also when it fails. -/
theorem InStep.plain {x : Conversion σ α} (h : InStep (keepsPlain σ) x x) :
    Preserves (fun s => s.graph.Plain) (fun _ => True) x := by
  intro s hs
  refine Meets.mono (h ⟨rfl, hs⟩) ?_ ?_
  · rintro a t ⟨t', -, -, ht⟩
    exact ht
  · rintro e t (hcut | ⟨t', -, -, ht⟩)
    · exact hcut.elim
    · exact ⟨ht, trivial⟩

theorem convertOne_plain (limit : Option Nat) (place : Place) (hints : Names) (depth : Nat) :
    Preserves (fun s : Progress σ => s.graph.Plain) (fun _ => True)
      (convertOne limit place hints depth) :=
  fun s hs => Meets.andThen (Meets.get
    ((toType_inStep keepsPlain_uniform _ _ place fun _ => rfl).plain s hs))

theorem convertAll_plain (limit : Option Nat) (root : Json) (rootAddress : String)
    (topLevels : SortedMap String Reference) :
    Preserves (fun s : Progress σ => s.graph.Plain) (fun _ => True)
      (convertAll limit root rootAddress topLevels) :=
  fun s hs => Meets.andThen (Meets.get ((convertEntries_inStep keepsPlain_uniform
    (fun name t hs => ⟨by rw [hs.1], hs.2.addTopLevel name t⟩) limit _ root rootAddress _).plain s hs))

end Conversion

/-! ## Sessions -/

namespace Session

open Conversion

variable {σ : Type} [DocumentSource σ] {limit : Option Nat} {s s' : Progress σ}

theorem Step.plain (hs : s.graph.Plain) (h : Step limit s s') : s'.graph.Plain := by
  cases h with
  | call call =>
    cases call with
    | convert root rootAddress topLevels =>
      exact (convertAll_plain limit root rootAddress topLevels).progressAfter hs
    | toType place hints depth => exact (convertOne_plain limit place hints depth).progressAfter hs
  | exchange documents => exact hs

theorem Later.plain (hs : s.graph.Plain) (h : Later limit s s') : s'.graph.Plain := by
  induction h with
  | refl => exact hs
  | tail _ hstep ih => exact hstep.plain ih

/-- In a session that starts with nothing, whatever calls succeed or fail in it, the nodes of primitive
types, arrays and maps have no attributes.  What has attributes is an enum, a class, a union or an
intersection. -/
theorem bare_of_later {documents : σ} (h : Later limit (Progress.start documents) s) :
    (∀ t kind, s.graph.shape? t = some (.primitive kind) → s.graph.attributes t = .empty) ∧
    (∀ t items, s.graph.shape? t = some (.array items) → s.graph.attributes t = .empty) ∧
    (∀ t values, s.graph.shape? t = some (.map values) → s.graph.attributes t = .empty) ∧
    ∀ t, s.graph.attributes t ≠ .empty →
      (∃ cases, s.graph.shape? t = some (.enum cases)) ∨
      (∃ properties, s.graph.shape? t = some (.record properties)) ∨
      ∃ operation members, s.graph.shape? t = some (.combination operation members) := by
  have hplain : s.graph.Plain := h.plain .empty
  refine ⟨fun t kind ht => hplain.bare t _ ht rfl, fun t items ht => hplain.bare t _ ht rfl,
    fun t values ht => hplain.bare t _ ht rfl, fun t hsome => ?_⟩
  have hlt : t < s.graph.nodes.length :=
    Nat.lt_of_not_le fun hle => hsome (TypeGraph.attributes_of_le hle)
  obtain ⟨shape, ht⟩ := TypeGraph.exists_shape? hlt
  have hbare := mt (hplain.bare t shape ht) hsome
  cases shape with
  | primitive kind | array items | map values => exact absurd rfl hbare
  | enum cases => exact Or.inl ⟨cases, ht⟩
  | record properties => exact Or.inr (Or.inl ⟨properties, ht⟩)
  | combination operation members => exact Or.inr (Or.inr ⟨operation, members, ht⟩)

/-- After the run for the list and a call that gives a name to anything at all, the nodes of `null` and of any
type have no attributes. -/
theorem bare_of_later_list :
    let run := Call.convert listCorpus.root listCorpus.rootAddress listEntries
    let anything := Call.toType (.ofDocument "any.json" (.bool true)) (.given "Anything") 0
    let s := after (some 8) (after (some 8) (Progress.start listCorpus.store) run) anything
    Later (some 8) (Progress.start listCorpus.store) s ∧
      s.graph.shape? 4 = some (.primitive .null) ∧ s.graph.attributes 4 = .empty ∧
      s.graph.shape? 8 = some (.primitive .any) ∧ s.graph.attributes 8 = .empty := by
  intro run anything s
  have hlater : Later (some 8) (Progress.start listCorpus.store) s :=
    (Relation.ReflTransGen.single (.call run)).tail (.call anything)
  have hnull : s.graph.shape? 4 = some (.primitive .null) := by decide +kernel
  have hany : s.graph.shape? 8 = some (.primitive .any) := by decide +kernel
  obtain ⟨hbare, -⟩ := bare_of_later hlater
  exact ⟨hlater, hnull, hbare 4 _ hnull, hany, hbare 8 _ hany⟩

end Session

end ShapeGraph
