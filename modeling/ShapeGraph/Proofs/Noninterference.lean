import ShapeGraph.Proofs.Links
import ShapeGraph.Proofs.PlacesInStep
import ShapeGraph.Proofs.Runs

/-!
# Names have no influence on structure

The names that are passed along with a schema only ever become attributes of nodes.  Conversions of one
place with different names, from progresses that differ in nothing but the attributes of nodes, give the
same node or the same failure, and what they leave behind again differs in nothing but attributes.

## Main definitions

* `TypeGraph.Alike`, `Progress.Alike` — two graphs, two progresses are equal up to attributes.
* `Conversion.upToAttributes` — the coupling of progresses that are equal up to attributes.

## Main results

* `Conversion.toType_alike` — the conversion of a place with any budget.
* `Conversion.convertOne_alike` — the same for a call with or without a limit.

## Design

The nodes that shapes and paths stand for are looked up and never listed, so it is enough that looking
them up gives the same.
-/

set_option autoImplicit false

namespace ShapeGraph

/-! ## Equal up to attributes -/

/-- The graphs have the same nodes, links, index of shapes and named nodes.  The attributes of nodes may
differ. -/
structure TypeGraph.Alike (g h : TypeGraph) : Prop where
  shape?_eq : ∀ t, h.shape? t = g.shape? t
  links_eq : h.links = g.links
  linksMade_eq : h.linksMade = g.linksMade
  lookup_eq : ∀ shape, h.interned.lookup shape = g.interned.lookup shape
  topLevels_eq : h.topLevels = g.topLevels

/-- The graphs are equal up to attributes, and everything else is the same. -/
structure Progress.Alike {σ : Type} (s s' : Progress σ) : Prop where
  graph : s.graph.Alike s'.graph
  documents_eq : s'.documents = s.documents
  nodeOf?_eq : ∀ path, s'.nodeOf? path = s.nodeOf? path
  chain_eq : s'.chain = s.chain

namespace TypeGraph.Alike

variable {g h : TypeGraph}

theorem refl (g : TypeGraph) : g.Alike g := ⟨fun _ => rfl, rfl, rfl, fun _ => rfl, rfl⟩

/-- There are as many nodes. -/
theorem length_eq (hgh : g.Alike h) : h.nodes.length = g.nodes.length := by
  have hle : g.nodes.length ≤ h.nodes.length := by
    refine Nat.le_of_not_lt fun hlt => ?_
    obtain ⟨shape, hshape⟩ := exists_shape? hlt
    rw [← hgh.shape?_eq, shape?_length] at hshape
    cases hshape
  refine Nat.le_antisymm (Nat.le_of_not_lt fun hlt => ?_) hle
  obtain ⟨shape, hshape⟩ := exists_shape? hlt
  rw [hgh.shape?_eq, shape?_length] at hshape
  cases hshape

/-- A new node. -/
theorem allocate (hgh : g.Alike h) (shape : Shape) :
    (h.allocate shape).1 = (g.allocate shape).1 ∧
      (g.allocate shape).2.Alike (h.allocate shape).2 := by
  refine ⟨hgh.length_eq, fun t => ?_, ?_, ?_, hgh.lookup_eq, hgh.topLevels_eq⟩
  · rw [shape?_allocate, shape?_allocate, hgh.length_eq, hgh.shape?_eq]
  · unfold TypeGraph.allocate TypeGraph.addLinks
    rw [hgh.links_eq, hgh.linksMade_eq, hgh.length_eq]
  · exact congrArg (· + shape.parts.length) hgh.linksMade_eq

/-- The node of a shape is the same, and if there is none yet, it is new on both sides. -/
theorem intern (hgh : g.Alike h) (shape : Shape) :
    (h.intern shape).1 = (g.intern shape).1 ∧ (g.intern shape).2.Alike (h.intern shape).2 := by
  unfold TypeGraph.intern
  rw [hgh.lookup_eq]
  cases g.interned.lookup shape with
  | some t => exact ⟨rfl, hgh⟩
  | none =>
    obtain ⟨heq, halike⟩ := hgh.allocate shape
    refine ⟨heq, halike.shape?_eq, halike.links_eq, halike.linksMade_eq, fun other => ?_,
      halike.topLevels_eq⟩
    dsimp only
    rw [List.lookup_cons, List.lookup_cons, heq, halike.lookup_eq]

/-- Members are set for the same node. -/
theorem replaceMembers (hgh : g.Alike h) (t : NodeId) (members : SortedSet NodeId) :
    (g.replaceMembers t members).Alike (h.replaceMembers t members) where
  shape?_eq u := by
    rw [shape?_replaceMembers, shape?_replaceMembers, hgh.shape?_eq, hgh.shape?_eq]
  links_eq := by
    unfold TypeGraph.replaceMembers modifyNode TypeGraph.addLinks
    rw [hgh.links_eq, hgh.linksMade_eq]
  linksMade_eq := congrArg (· + _) hgh.linksMade_eq
  lookup_eq := hgh.lookup_eq
  topLevels_eq := hgh.topLevels_eq

/-- Setting members succeeds on both sides, or fails on both for the same reason. -/
theorem setMembers_fst (hgh : g.Alike h) (t : NodeId) (members : SortedSet NodeId) :
    (h.setMembers t members).1 = (g.setMembers t members).1 := by
  unfold setMembers label
  rw [hgh.shape?_eq]
  split <;> rfl

/-- Attributes leave everything else as it is. -/
theorem addAttributes (hgh : g.Alike h) (t : NodeId) (a a' : Attributes) :
    (g.addAttributes t a).Alike (h.addAttributes t a') where
  shape?_eq u := by rw [shape?_addAttributes, shape?_addAttributes, hgh.shape?_eq]
  links_eq := by rw [links_addAttributes, links_addAttributes, hgh.links_eq]
  linksMade_eq := by rw [linksMade_addAttributes, linksMade_addAttributes, hgh.linksMade_eq]
  lookup_eq := by simpa using hgh.lookup_eq
  topLevels_eq := by simpa using hgh.topLevels_eq

end TypeGraph.Alike

namespace Conversion

variable {σ : Type}

/-- The progress is the same on both sides up to attributes. -/
def upToAttributes (σ : Type) : Coupling σ where
  relates := Progress.Alike
  fails _ := Progress.Alike
  cuts _ := False
  loose _ _ := True

theorem upToAttributes_stable (a a' : Attributes) : (upToAttributes σ).Stable a a' where
  nodeOf?_eq hs := hs.nodeOf?_eq
  interned shape _ hs := by
    obtain ⟨heq, hgraph⟩ := hs.graph.intern shape
    exact ⟨heq, ⟨hgraph, hs.documents_eq, hs.nodeOf?_eq, hs.chain_eq⟩, fun _ => trivial⟩
  declared operation hs := by
    obtain ⟨heq, hgraph⟩ := hs.graph.allocate (.combination operation none)
    exact ⟨heq, hgraph, hs.documents_eq, hs.nodeOf?_eq, hs.chain_eq⟩
  filled t members hs := ⟨hs.graph.setMembers_fst t members,
    hs.graph.replaceMembers t members, hs.documents_eq, hs.nodeOf?_eq, hs.chain_eq⟩
  attributed t _ hs :=
    ⟨hs.graph.addAttributes t a a', hs.documents_eq, hs.nodeOf?_eq, hs.chain_eq⟩
  loose_of_union _ := trivial
  keyed path t _ _ hs := by
    refine ⟨hs.graph, hs.documents_eq, fun other => ?_, hs.chain_eq⟩
    rw [Progress.nodeOf?_bind, Progress.nodeOf?_bind, hs.nodeOf?_eq]
  excuses _ _ _ _ hs := hs

theorem upToAttributes_uniform [DocumentSource σ] : (upToAttributes σ).Uniform False where
  stable _ := upToAttributes_stable _ _
  loose_of_intersection _ := trivial
  fails_iff := Iff.rfl
  bound path t _ hs := by
    refine ⟨hs.graph, hs.documents_eq, fun other => ?_, hs.chain_eq⟩
    rw [Progress.nodeOf?_bind, Progress.nodeOf?_bind, hs.nodeOf?_eq]
  chain_eq hs := hs.chain_eq
  chained _ hs := ⟨hs.graph, hs.documents_eq, hs.nodeOf?_eq, rfl⟩
  fetched address hs := by
    rw [hs.documents_eq]
    exact ⟨rfl, hs.graph, rfl, hs.nodeOf?_eq, hs.chain_eq⟩

variable [DocumentSource σ]

/-- The conversion of a place with other names stays the same up to attributes. -/
theorem toType_alike (limit budget : Nat) (place : Place) (hints hints' : Names) :
    InStep (upToAttributes σ) (toType limit budget place hints)
      (toType limit budget place hints') :=
  toType_inStep upToAttributes_uniform limit budget place fun h => h.elim

/-- Two calls that differ only in the names passed to them, from progresses that are equal up to
attributes, give the same node or the same failure and leave behind progresses that are again equal up to
attributes. -/
theorem convertOne_alike {s s' : Progress σ} (hs : s.Alike s') (limit : Option Nat) (place : Place)
    (hints hints' : Names) (depth : Nat) :
    Meets (convertOne limit place hints depth) s
      (fun t u => ∃ u', convertOne limit place hints' depth s' = .ok t u' ∧ u.Alike u')
      (fun e u => ∃ u', convertOne limit place hints' depth s' = .error e u' ∧ u.Alike u') := by
  have hstep : Lockstep (upToAttributes σ) (convertOne limit place hints depth)
      (convertOne limit place hints' depth) s s' fun _ => Progress.Alike := by
    refine Lockstep.get ?_
    rw [hs.documents_eq]
    exact toType_alike _ _ place hints hints' hs
  exact Meets.mono hstep (fun _ _ ht => ht) fun e u he => he.resolve_left id

/-- A progress in which there is one union, with a name, and no path has been bound. -/
def namedUnion (name : String) : Progress MemoryStore :=
  { Progress.start listCorpus.store with
    graph := (TypeGraph.empty.declare .union).2.addAttributes 0 ⟨.given name, ∅⟩ }

/-- The list gets the same node whatever names are passed to it, and whatever the name of a union that
has been there before. -/
theorem convertOne_alike_list :
    ∃ t u u',
      convertOne (some 8) (.ofDocument "list.json" listCorpus.root) (.inferred "List") 0
        (namedUnion "First") = .ok t u ∧
      convertOne (some 8) (.ofDocument "list.json" listCorpus.root) (.given "Chain") 0
        (namedUnion "Second") = .ok t u' ∧ u.Alike u' := by
  have hgraph := (TypeGraph.Alike.refl (TypeGraph.empty.declare .union).2).addAttributes 0
    ⟨.given "First", ∅⟩ ⟨.given "Second", ∅⟩
  have halike : (namedUnion "First").Alike (namedUnion "Second") :=
    ⟨hgraph, rfl, fun _ => rfl, rfl⟩
  have hsucceeds : succeeds
      (convertOne (some 8) (.ofDocument "list.json" listCorpus.root) (.inferred "List") 0)
      (namedUnion "First") = true := by decide +kernel
  obtain ⟨t, u, hrun⟩ := exists_eq_ok hsucceeds
  obtain ⟨u', hrun', hu⟩ :=
    (convertOne_alike halike (some 8) _ (.inferred "List") (.given "Chain") 0).of_eq_ok hrun
  exact ⟨t, u, u', hrun, hrun', hu⟩

end Conversion

end ShapeGraph
