import ShapeGraph.Proofs.Groups
import ShapeGraph.Proofs.Mirroring

/-!
# Recursion needs a union or intersection

Arrays, maps and classes are made after their parts, and never change.  So their links lead to nodes with
smaller numbers, also when the node that is asked for has been there for long.  Only unions and intersections
get members that were made later.  Going round along links is therefore not possible without coming by one of
them, and this is where whoever walks over recursive types can stop.

## Main definitions

* `TypeGraph.Descends` — the parts of all nodes but unions and intersections have smaller numbers.
* `TypeGraph.IsCombination` — a node is a union or intersection.

## Main results

* `TypeGraph.Descends.perform` — every request that links nodes of the graph keeps this.
* `TypeGraph.exists_combination_of_closed` — every closed walk comes by a union or intersection.
* `TypeGraph.performAll_descends` — what follows for every graph that has been built.
-/

set_option autoImplicit false

namespace ShapeGraph

namespace TypeGraph

open Relation (TransGen ReflTransGen)

variable {g : TypeGraph} {s t : NodeId}

/-- The node is a union or intersection. -/
def IsCombination (g : TypeGraph) (t : NodeId) : Prop :=
  ∃ operation members, g.shape? t = some (.combination operation members)

/-- The parts of all nodes that are no unions or intersections have smaller numbers than these. -/
def Descends (g : TypeGraph) : Prop :=
  ∀ t shape, g.shape? t = some shape → shape.isCombination = false → ∀ part ∈ shape.parts, part.2 < t

/-! ## What requests keep -/

namespace Descends

theorem empty : Descends .empty := by
  intro t shape ht
  simp [TypeGraph.empty, shape?] at ht

/-- A new node comes after all its parts. -/
theorem allocate (hg : g.Descends) {shape : Shape}
    (hparts : ∀ part ∈ shape.parts, part.2 < g.nodes.length) : (g.allocate shape).2.Descends := by
  intro t other ht hother part hpart
  rw [shape?_allocate] at ht
  split at ht
  · next heq =>
    cases ht
    rw [heq]
    exact hparts part hpart
  · exact hg t other ht hother part hpart

theorem intern (hg : g.Descends) {shape : Shape}
    (hparts : ∀ part ∈ shape.parts, part.2 < g.nodes.length) : (g.intern shape).2.Descends := by
  unfold TypeGraph.intern
  split
  · exact hg
  · exact hg.allocate hparts

/-- Setting members changes no node but unions and intersections, also where it fails. -/
theorem replaceMembers (hg : g.Descends) (t : NodeId) (members : SortedSet NodeId) :
    (g.replaceMembers t members).Descends := by
  intro u shape hu hshape part hpart
  refine hg u shape ?_ hshape part hpart
  rw [shape?_replaceMembers] at hu
  split at hu
  · next heq =>
    obtain ⟨old, hold, rfl⟩ := Option.map_eq_some_iff.1 hu
    cases old with
    | combination => cases hshape
    | primitive | enum | array | map | record => exact heq ▸ hold
  · exact hu

theorem addAttributes (hg : g.Descends) (t : NodeId) (attributes : Attributes) :
    (g.addAttributes t attributes).Descends := by
  intro u shape hu
  rw [shape?_addAttributes] at hu
  exact hg u shape hu

/-- A request that links nodes of the graph only makes nodes after their parts. -/
theorem perform (hg : g.Descends) {r : Request} (hr : ∀ t ∈ r.handles, t < g.nodes.length) :
    (g.perform r).2.Descends := by
  cases hwanted : r.wanted? with
  | some shape =>
    rw [perform_of_wanted hwanted]
    exact hg.intern fun part hpart => hr _ (Request.mem_handles_of_wanted hwanted hpart)
  | none =>
    cases r with
    | primitive | enum | array | map | record => cases hwanted
    | declare operation => exact hg.allocate (by simp [Shape.parts])
    | setMembers t members =>
      show (g.setMembers t members).2.Descends
      rw [setMembers_snd]
      exact hg.replaceMembers t members
    | addAttributes t attributes => exact hg.addAttributes t attributes
    | addTopLevel name t => exact hg

theorem performAll {requests : List Request} (hrequests : LinksAnswers requests) :
    (TypeGraph.empty.performAll requests).Descends :=
  performAll_induction Descends .empty (fun _ _ hg hr => hg.perform hr) hrequests

end Descends

/-! ## Going round -/

section Linked

variable (hg : g.Descends) (hmirrored : g.Mirrored)

include hg hmirrored

/-- From every node but unions and intersections, links lead to nodes with smaller numbers. -/
theorem lt_of_linked (h : g.Linked s t) (hs : ¬ g.IsCombination s) : t < s := by
  obtain ⟨shape, role, hshape, hpart⟩ := hmirrored.linked_iff.1 h
  refine hg s shape hshape ?_ (role, t) hpart
  cases shape with
  | combination operation members => exact absurd ⟨operation, members, hshape⟩ hs
  | primitive | enum | array | map | record => rfl

/-- Who goes round along links comes by a union or intersection.

**Proof sketch.** Otherwise the number of the node gets smaller with every step, and it is not the same in
the end. -/
theorem exists_combination_of_closed {walk : ℕ → NodeId} {n : ℕ} (hn : 0 < n)
    (hwalk : ∀ i < n, g.Linked (walk i) (walk (i + 1))) (hclosed : walk n = walk 0) :
    ∃ i < n, g.IsCombination (walk i) := by
  by_contra hnone
  push Not at hnone
  have hstep : ∀ i < n, walk (i + 1) < walk i := fun i hi =>
    lt_of_linked hg hmirrored (hwalk i hi) (hnone i hi)
  have hbelow : ∀ i, 0 < i → i ≤ n → walk i < walk 0 := by
    intro i hpos hle
    induction i, hpos using Nat.le_induction with
    | base => exact hstep 0 hn
    | succ i hpos ih => exact Nat.lt_trans (hstep i hle) (ih (Nat.le_of_succ_le hle))
  exact Nat.lt_irrefl _ (hclosed ▸ hbelow n hn (Nat.le_refl n))

/-- A path of links leads to a smaller number, or comes by a union or intersection before it ends. -/
theorem lt_or_exists_combination (h : g.LeadsTo s t) :
    t < s ∨ ∃ u, g.IsCombination u ∧ ReflTransGen g.Linked s u ∧ g.LeadsTo u t := by
  induction h using TransGen.head_induction_on with
  | @single s hlink =>
    by_cases hs : g.IsCombination s
    · exact Or.inr ⟨s, hs, .refl, .single hlink⟩
    · exact Or.inl (lt_of_linked hg hmirrored hlink hs)
  | @head s next hlink hrest ih =>
    by_cases hs : g.IsCombination s
    · exact Or.inr ⟨s, hs, .refl, .head hlink hrest⟩
    · rcases ih with hlt | ⟨u, hu, hthere, hon⟩
      · exact Or.inl (Nat.lt_trans hlt (lt_of_linked hg hmirrored hlink hs))
      · exact Or.inr ⟨u, hu, .head hlink hthere, hon⟩

/-- In every group there is a union or intersection. -/
theorem exists_combination_of_mem_cycles (hgrounded : g.Grounded) {group : List NodeId}
    (hgroup : group ∈ g.cycles) : ∃ u ∈ group, g.IsCombination u := by
  obtain ⟨s, hfirst, rfl⟩ := (mem_cycles_iff hgrounded).1 hgroup
  obtain ⟨hround, -⟩ := (together_iff hgrounded).1 hfirst.1
  rcases lt_or_exists_combination hg hmirrored hround with hlt | ⟨u, hu, hthere, hback⟩
  · exact absurd hlt (Nat.lt_irrefl s)
  · have htogether : g.together s u = true :=
      (together_iff hgrounded).2 ⟨hround.trans_left hthere, hback⟩
    exact ⟨u, (mem_groupOf_iff hgrounded).2 htogether, hu⟩

end Linked

/-! ## Main results -/

/-- As long as requests only link answers, and members are only set for unions and intersections: the parts
of all other nodes have smaller numbers than these, and so have the nodes that links lead to from them.  So
every closed walk along links comes by a union or intersection, and there is one in every group of recursive
types. -/
theorem performAll_descends (requests : List Request) (hrequests : LinksAnswers requests)
    (hadmits : empty.Admits requests) :
    let g := empty.performAll requests
    (∀ t shape, g.shape? t = some shape → shape.isCombination = false →
      ∀ part ∈ shape.parts, part.2 < t) ∧
    (∀ l ∈ g.links, ¬ g.IsCombination l.source → l.target < l.source) ∧
    (∀ (walk : ℕ → NodeId) (n : ℕ), 0 < n → (∀ i < n, g.Linked (walk i) (walk (i + 1))) →
      walk n = walk 0 → ∃ i < n, g.IsCombination (walk i)) ∧
    ∀ group ∈ g.cycles, ∃ t ∈ group, g.IsCombination t := by
  intro g
  have hg : g.Descends := Descends.performAll hrequests
  have hmirrored : g.Mirrored := Mirrored.empty.performAll .empty hadmits
  refine ⟨hg, fun l hl hsource => ?_, fun walk n => exists_combination_of_closed hg hmirrored,
    fun group => exists_combination_of_mem_cycles hg hmirrored (grounded_performAll hrequests)⟩
  exact lt_of_linked hg hmirrored ⟨l, hl, rfl, rfl⟩ hsource

/-- An array whose items are a union of it and of a class that has the array as a property: one group, with
the union in it, from which alone links lead to greater numbers. -/
theorem performAll_descends_array :
    let requests := [.declare .union, .array 0, .record [⟨"items", 1, false⟩],
      .setMembers 0 (.ofList [1, 2])]
    let g := empty.performAll requests
    LinksAnswers requests ∧ empty.Admits requests ∧ g.cycles = [[0, 1, 2]] ∧
      ∃ t ∈ [0, 1, 2], g.IsCombination t := by
  intro requests g
  have hrequests : LinksAnswers requests := by decide
  have hadmits : empty.Admits requests := ⟨trivial, trivial, trivial, ⟨_, _, rfl⟩, trivial⟩
  have hcycles : g.cycles = [[0, 1, 2]] := by decide +kernel
  obtain ⟨-, -, -, hgroups⟩ := performAll_descends requests hrequests hadmits
  exact ⟨hrequests, hadmits, hcycles, hgroups [0, 1, 2] (hcycles ▸ List.mem_singleton_self _)⟩

end TypeGraph

end ShapeGraph
