import Mathlib.Logic.Relation
import ShapeGraph.Proofs.Links

/-!
# Parts of types

Which types a type is made of can be read off the shapes, and as the links repeat the shapes, off the
links just as well.  While a graph is built, its nodes never refer to nodes that have not been made,
and no shape other than a union or intersection has two nodes.

## Main definitions

* `TypeGraph.HasPart`, `TypeGraph.Reaches` — a node is a part of another one, directly or not.
* `TypeGraph.Consed` — every shape other than a union or intersection has at most one node.
* `TypeGraph.Valid` — what holds of every graph while it is built.

## Main results

* `TypeGraph.Mirrored.linked_iff` — links lead to the parts of a node.
* `TypeGraph.Reaches.mono` — a graph that loses nothing loses no reachability.
* `TypeGraph.Valid.intern`, `TypeGraph.Valid.declare`, … — operations keep graphs valid.
-/

set_option autoImplicit false

namespace ShapeGraph

/-- Whether nothing is missing: unions and intersections have members, and an intersection has at least
one. -/
def Shape.isFinished : Shape → Bool
  | .combination _ none => false
  | .combination .intersection (some members) => !members.isEmpty
  | _ => true

theorem Shape.isFinished_of_not_isCombination {shape : Shape} (h : shape.isCombination = false) :
    shape.isFinished = true := by
  cases shape <;> simp_all [isFinished, isCombination]

namespace TypeGraph

variable {g h : TypeGraph}

/-! ## Parts -/

/-- One node is a part of the other. -/
def HasPart (g : TypeGraph) (t u : NodeId) : Prop :=
  ∃ shape role, g.shape? t = some shape ∧ (role, u) ∈ shape.parts

/-- One node is a part of the other, or a part of a part, and so on. -/
def Reaches (g : TypeGraph) : NodeId → NodeId → Prop := Relation.ReflTransGen g.HasPart

/-- A link leads from one node to the other. -/
def Linked (g : TypeGraph) (t u : NodeId) : Prop := ∃ l ∈ g.links, l.source = t ∧ l.target = u

/-- Links lead to the parts of a node. -/
theorem Mirrored.linked_iff (hg : g.Mirrored) {t u : NodeId} : g.Linked t u ↔ g.HasPart t u := by
  constructor
  · rintro ⟨l, hl, rfl, rfl⟩
    obtain ⟨shape, hshape⟩ := exists_shape? (hg.source_lt l hl)
    refine ⟨shape, l.role, hshape, (hg.parts_perm _ _ hshape).mem_iff.1 ?_⟩
    exact List.mem_map.2 ⟨l, List.mem_filter.2 ⟨hl, by simp⟩, rfl⟩
  · rintro ⟨shape, role, hshape, hpart⟩
    obtain ⟨l, hl, heq⟩ := List.mem_map.1 ((hg.parts_perm _ _ hshape).mem_iff.2 hpart)
    obtain ⟨hmem, hsource⟩ := List.mem_filter.1 hl
    exact ⟨l, hmem, by simpa using hsource, congrArg Prod.snd heq⟩

theorem parts_of_isUnset {shape : Shape} (hshape : shape.isUnset = true) : shape.parts = [] := by
  cases shape with
  | combination operation members =>
    cases members with
    | none => rfl
    | some members => cases hshape
  | primitive _ | enum _ | array _ | map _ | record _ => cases hshape

/-- A graph that loses nothing loses no part: what waits for members has none yet. -/
theorem HasPart.mono (hgh : g.Retains h) {t u : NodeId} (hpart : g.HasPart t u) : h.HasPart t u := by
  obtain ⟨shape, role, hshape, hmem⟩ := hpart
  refine ⟨shape, role, hgh t shape ?_ hshape, hmem⟩
  rw [← Bool.not_eq_true]
  intro hunset
  rw [parts_of_isUnset hunset] at hmem
  cases hmem

theorem Reaches.mono (hgh : g.Retains h) {t u : NodeId} (hreaches : g.Reaches t u) :
    h.Reaches t u := by
  induction hreaches with
  | refl => exact Relation.ReflTransGen.refl
  | tail _ hpart ih => exact ih.tail (hpart.mono hgh)

/-! ## Shared nodes -/

/-- Every node of a shape other than a union or intersection is the one that the index leads to. -/
def Consed (g : TypeGraph) : Prop :=
  ∀ t shape, shape.isCombination = false → g.shape? t = some shape →
    g.interned.lookup shape = some t

namespace Consed

theorem empty : Consed .empty := by
  intro t shape _ ht
  simp [TypeGraph.empty, shape?] at ht

/-- Two nodes of the same shape are the same, unless they are unions or intersections. -/
theorem unique (hg : g.Consed) {shape : Shape} (hshape : shape.isCombination = false) {t u : NodeId}
    (ht : g.shape? t = some shape) (hu : g.shape? u = some shape) : t = u := by
  have htu := (hg t shape hshape ht).symm.trans (hg u shape hshape hu)
  exact Option.some.inj htu

theorem intern (hg : g.Consed) (shape : Shape) : (g.intern shape).2.Consed := by
  unfold TypeGraph.intern
  cases hfind : g.interned.lookup shape with
  | some t => exact hg
  | none =>
    intro u other hother hu
    dsimp only at hu ⊢
    rw [List.lookup_cons]
    change (g.allocate shape).2.shape? u = some other at hu
    rw [shape?_allocate] at hu
    split at hu
    · next heq =>
      cases hu
      rw [heq, beq_self_eq_true]
      rfl
    · have hold := hg u other hother hu
      have hne : (other == shape) = false := by
        rw [beq_eq_false_iff_ne]
        rintro rfl
        rw [hfind] at hold
        cases hold
      rw [hne]
      exact hold

theorem declare (hg : g.Consed) (operation : Operation) : (g.declare operation).2.Consed := by
  intro u shape hshape hu
  unfold TypeGraph.declare at hu
  rw [shape?_allocate] at hu
  split at hu
  · cases hu
    cases hshape
  · exact hg u shape hshape hu

theorem replaceMembers (hg : g.Consed) (t : NodeId) (members : SortedSet NodeId) :
    (g.replaceMembers t members).Consed := by
  intro u shape hshape hu
  refine hg u shape hshape ?_
  rw [shape?_replaceMembers] at hu
  split at hu
  · next heq =>
    subst heq
    obtain ⟨old, hold, rfl⟩ := Option.map_eq_some_iff.1 hu
    -- Members are only set for unions and intersections, and these remain what they are.
    cases old with
    | combination => cases hshape
    | primitive _ | enum _ | array _ | map _ | record _ => exact hold
  · exact hu

theorem addAttributes (hg : g.Consed) (t : NodeId) (attributes : Attributes) :
    (g.addAttributes t attributes).Consed := by
  intro u shape hshape hu
  rw [shape?_addAttributes] at hu
  rw [interned_addAttributes]
  exact hg u shape hshape hu

end Consed

/-! ## Valid graphs -/

/-- What holds of every graph while it is built. -/
structure Valid (g : TypeGraph) : Prop where
  indexed : g.Indexed
  consed : g.Consed
  stamped : g.Stamped
  mirrored : g.Mirrored
  closed : ∀ t shape, g.shape? t = some shape → ∀ part ∈ shape.parts, part.2 < g.nodes.length

/-- Only the node of a shape is new after it has been asked for. -/
theorem eq_intern_of_new {shape other : Shape} {t : NodeId} (hnew : g.nodes.length ≤ t)
    (ht : (g.intern shape).2.shape? t = some other) : t = (g.intern shape).1 := by
  unfold intern at ht ⊢
  split at ht
  · exact absurd (lt_length_of_shape? ht) (Nat.not_lt.2 hnew)
  · change (g.allocate shape).2.shape? t = some other at ht
    rw [shape?_allocate] at ht
    split at ht
    · assumption
    · exact absurd (lt_length_of_shape? ht) (Nat.not_lt.2 hnew)

/-- Only the new node is new after a union or intersection has been made. -/
theorem eq_declare_of_new {operation : Operation} {other : Shape} {t : NodeId}
    (hnew : g.nodes.length ≤ t) (ht : (g.declare operation).2.shape? t = some other) :
    t = (g.declare operation).1 := by
  unfold declare at ht ⊢
  rw [shape?_allocate] at ht
  split at ht
  · assumption
  · exact absurd (lt_length_of_shape? ht) (Nat.not_lt.2 hnew)

namespace Valid

theorem empty : Valid .empty :=
  ⟨.empty, .empty, .empty, .empty, by simp [TypeGraph.empty, shape?]⟩

theorem intern (hg : g.Valid) {shape : Shape} (hshape : shape.isCombination = false)
    (hparts : ∀ part ∈ shape.parts, part.2 < g.nodes.length) : (g.intern shape).2.Valid := by
  have hspec := intern_spec hg.indexed hshape
  refine ⟨hspec.indexed, hg.consed.intern shape, hg.stamped.intern shape, hg.mirrored.intern shape, ?_⟩
  intro t other ht part hpart
  refine Nat.lt_of_lt_of_le ?_ hspec.keeps.length_le
  rcases Nat.lt_or_ge t g.nodes.length with hold | hnew
  · obtain ⟨same, hsame⟩ := exists_shape? hold
    rw [hspec.keeps t same hsame] at ht
    cases ht
    exact hg.closed t other hsame part hpart
  · rw [eq_intern_of_new hnew ht, hspec.has_shape] at ht
    cases ht
    exact hparts part hpart

theorem declare (hg : g.Valid) (operation : Operation) : (g.declare operation).2.Valid := by
  have hspec := declare_spec hg.indexed operation
  refine ⟨hspec.indexed, hg.consed.declare operation, hg.stamped.allocate _,
    hg.mirrored.allocate _, ?_⟩
  intro t other ht part hpart
  refine Nat.lt_of_lt_of_le ?_ hspec.keeps.length_le
  rcases Nat.lt_or_ge t g.nodes.length with hold | hnew
  · obtain ⟨same, hsame⟩ := exists_shape? hold
    rw [hspec.keeps t same hsame] at ht
    cases ht
    exact hg.closed t other hsame part hpart
  · rw [eq_declare_of_new hnew ht, hspec.has_shape] at ht
    cases ht
    cases hpart

theorem replaceMembers (hg : g.Valid) {t : NodeId} {operation : Operation}
    (ht : g.shape? t = some (.combination operation none)) {members : SortedSet NodeId}
    (hmembers : ∀ m ∈ members, m < g.nodes.length) : (g.replaceMembers t members).Valid := by
  have hretains := retains_replaceMembers ht members
  refine ⟨hg.indexed.of_retains hretains rfl, hg.consed.replaceMembers t members,
    hg.stamped.replaceMembers t members, hg.mirrored.replaceMembers hg.stamped ht members, ?_⟩
  intro u shape hu part hpart
  rw [length_replaceMembers]
  by_cases hne : u = t
  · subst hne
    rw [shape?_replaceMembers_self ht] at hu
    cases hu
    obtain ⟨m, hm, rfl⟩ := List.mem_map.1 hpart
    exact hmembers m hm
  · rw [shape?_replaceMembers_of_ne g hne] at hu
    exact hg.closed u shape hu part hpart

theorem addAttributes (hg : g.Valid) (t : NodeId) (attributes : Attributes) :
    (g.addAttributes t attributes).Valid := by
  have hkeeps := keeps_addAttributes g t attributes
  refine ⟨hg.indexed.of_retains hkeeps.retains (interned_addAttributes g t attributes),
    hg.consed.addAttributes t attributes, hg.stamped.addAttributes t attributes,
    hg.mirrored.addAttributes t attributes, ?_⟩
  intro u shape hu part hpart
  rw [shape?_addAttributes] at hu
  rw [length_addAttributes]
  exact hg.closed u shape hu part hpart

theorem addTopLevel (hg : g.Valid) (name : String) (t : NodeId) : (g.addTopLevel name t).Valid :=
  ⟨hg.indexed, hg.consed, ⟨hg.stamped.nodup, hg.stamped.lt_linksMade⟩,
    ⟨hg.mirrored.parts_perm, hg.mirrored.source_lt⟩, hg.closed⟩

end Valid

end TypeGraph

end ShapeGraph
