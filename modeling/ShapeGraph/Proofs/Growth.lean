import ShapeGraph.Graph.Build

/-!
# How type graphs grow

Building a graph adds nodes and gives members to unions and intersections.  What has been said of the
shape of a node stays true, except that members that are not yet set may be set later.

## Main definitions

* `TypeGraph.Keeps` — all nodes keep their shapes.
* `TypeGraph.Retains` — all nodes keep their shapes, apart from those that still wait for members.
* `TypeGraph.Indexed` — the index of shapes leads to nodes of these shapes.

## Main results

* `TypeGraph.intern_spec` — asking for a shape gives a node that has it.
* `TypeGraph.declare_spec` — a new union or intersection waits for its members.
* `TypeGraph.shape?_replaceMembers` — setting members changes a single node.
-/

set_option autoImplicit false

namespace ShapeGraph

/-- Whether the shape is a union or intersection that waits for its members. -/
def Shape.isUnset : Shape → Bool
  | .combination _ none => true
  | _ => false

/-- Only unions and intersections wait for members. -/
theorem Shape.isUnset_of_not_isCombination {shape : Shape} (h : shape.isCombination = false) :
    shape.isUnset = false := by
  cases shape <;> simp_all [isUnset, isCombination]

namespace TypeGraph

/-! ## Comparing graphs -/

/-- All nodes of `g` have the same shape in `h`. -/
def Keeps (g h : TypeGraph) : Prop :=
  ∀ t shape, g.shape? t = some shape → h.shape? t = some shape

/-- All nodes of `g` that do not wait for members have the same shape in `h`. -/
def Retains (g h : TypeGraph) : Prop :=
  ∀ t shape, shape.isUnset = false → g.shape? t = some shape → h.shape? t = some shape

/-- The index of shapes leads to nodes of these shapes, none of them a union or intersection. -/
def Indexed (g : TypeGraph) : Prop :=
  ∀ shape t, g.interned.lookup shape = some t →
    shape.isCombination = false ∧ g.shape? t = some shape

theorem Keeps.refl (g : TypeGraph) : g.Keeps g := fun _ _ h => h

theorem Keeps.trans {g h k : TypeGraph} (hgh : g.Keeps h) (hhk : h.Keeps k) : g.Keeps k :=
  fun t shape ht => hhk t shape (hgh t shape ht)

theorem Keeps.retains {g h : TypeGraph} (hgh : g.Keeps h) : g.Retains h :=
  fun t shape _ ht => hgh t shape ht

theorem Indexed.empty : Indexed .empty := by
  intro shape t h
  simp [TypeGraph.empty] at h

/-- Where no shape is lost and nothing new is indexed, the index stays right. -/
theorem Indexed.of_retains {g h : TypeGraph} (hg : g.Indexed) (hgh : g.Retains h)
    (hindex : h.interned = g.interned) : h.Indexed := by
  intro shape t ht
  rw [hindex] at ht
  obtain ⟨hshape, hg'⟩ := hg shape t ht
  exact ⟨hshape, hgh t shape (Shape.isUnset_of_not_isCombination hshape) hg'⟩

/-! ## Allocation -/

/-- A new node has the shape that was asked for, and all others stay as they are. -/
theorem shape?_allocate (g : TypeGraph) (shape : Shape) (t : NodeId) :
    (g.allocate shape).2.shape? t = if t = g.nodes.length then some shape else g.shape? t := by
  simp only [allocate, addLinks, shape?]
  by_cases h : t = g.nodes.length
  · subst h
    simp
  · rw [if_neg h]
    rcases Nat.lt_or_gt_of_ne h with hlt | hgt
    · rw [List.getElem?_append_left hlt]
    · rw [List.getElem?_eq_none (by simp; omega), List.getElem?_eq_none (by omega)]

/-- The node that comes next does not exist yet. -/
theorem shape?_length (g : TypeGraph) : g.shape? g.nodes.length = none := by
  simp [shape?]

/-- Only nodes that have been made have a shape. -/
theorem lt_length_of_shape? {g : TypeGraph} {t : NodeId} {shape : Shape}
    (h : g.shape? t = some shape) : t < g.nodes.length := by
  obtain ⟨n, hn, -⟩ := Option.map_eq_some_iff.1 h
  exact (List.getElem?_eq_some_iff.1 hn).1

/-- Every node that has been made has a shape. -/
theorem exists_shape? {g : TypeGraph} {t : NodeId} (h : t < g.nodes.length) :
    ∃ shape, g.shape? t = some shape :=
  ⟨g.nodes[t].shape, by rw [shape?, List.getElem?_eq_getElem h]; rfl⟩

/-- No node gets lost. -/
theorem Keeps.length_le {g h : TypeGraph} (hgh : g.Keeps h) : g.nodes.length ≤ h.nodes.length := by
  rcases Nat.eq_zero_or_pos g.nodes.length with hzero | hpos
  · omega
  · have hlast : g.nodes.length - 1 < g.nodes.length := Nat.sub_one_lt_of_lt hpos
    obtain ⟨shape, hshape⟩ := exists_shape? hlast
    exact Nat.le_of_pred_lt (lt_length_of_shape? (hgh _ _ hshape))

theorem keeps_allocate (g : TypeGraph) (shape : Shape) : g.Keeps (g.allocate shape).2 := by
  intro t other ht
  rw [shape?_allocate, if_neg, ht]
  intro h
  rw [h, shape?_length] at ht
  cases ht

theorem keeps_intern (g : TypeGraph) (shape : Shape) : g.Keeps (g.intern shape).2 := by
  unfold intern
  split
  · exact Keeps.refl g
  · exact keeps_allocate g shape

/-- What holds of the node of a shape after it has been asked for. -/
structure InternSpec (g : TypeGraph) (shape : Shape) (r : NodeId × TypeGraph) : Prop where
  has_shape : r.2.shape? r.1 = some shape
  keeps : g.Keeps r.2
  indexed : r.2.Indexed
  topLevels_eq : r.2.topLevels = g.topLevels

/-- Asking for a shape other than a union or intersection gives a node that has it.

**Proof sketch.** If the shape is indexed, the index is right and nothing changes.  Otherwise a new
node is made, and the index is right about it and, as nothing is lost, about all others. -/
theorem intern_spec {g : TypeGraph} (hg : g.Indexed) {shape : Shape}
    (hshape : shape.isCombination = false) : InternSpec g shape (g.intern shape) := by
  unfold intern
  cases hfind : g.interned.lookup shape with
  | some t => exact ⟨(hg shape t hfind).2, Keeps.refl g, hg, rfl⟩
  | none =>
    have hnew : (g.allocate shape).2.shape? g.nodes.length = some shape := by
      rw [shape?_allocate, if_pos rfl]
    refine ⟨hnew, keeps_allocate g shape, ?_, rfl⟩
    intro other t ht
    simp only [List.lookup_cons] at ht
    split at ht
    · next heq =>
      obtain rfl : other = shape := by simpa using heq
      cases ht
      exact ⟨hshape, hnew⟩
    · obtain ⟨hother, hold⟩ := hg other t ht
      exact ⟨hother, keeps_allocate g shape t other hold⟩

/-- What holds of a union or intersection that has just been made. -/
structure DeclareSpec (g : TypeGraph) (operation : Operation) (r : NodeId × TypeGraph) : Prop where
  has_shape : r.2.shape? r.1 = some (.combination operation none)
  is_new : g.shape? r.1 = none
  keeps : g.Keeps r.2
  indexed : r.2.Indexed
  topLevels_eq : r.2.topLevels = g.topLevels

/-- A new union or intersection waits for its members. -/
theorem declare_spec {g : TypeGraph} (hg : g.Indexed) (operation : Operation) :
    DeclareSpec g operation (g.declare operation) where
  has_shape := by
    unfold declare
    rw [shape?_allocate]
    exact if_pos rfl
  is_new := shape?_length g
  keeps := keeps_allocate g _
  indexed := hg.of_retains (keeps_allocate g _).retains rfl
  topLevels_eq := rfl

/-! ## Changes -/

theorem shape?_modifyNode (g : TypeGraph) (t u : NodeId) (f : Node → Node) :
    (g.modifyNode t f).shape? u =
      if u = t then (g.nodes[t]?).map fun n => (f n).shape else g.shape? u := by
  simp only [modifyNode, shape?, List.getElem?_modify]
  by_cases h : u = t
  · subst h
    cases g.nodes[u]? <;> simp
  · rw [if_neg h]
    cases g.nodes[u]? <;> simp [Ne.symm h]

/-- Setting members changes the shape of a single node. -/
theorem shape?_replaceMembers (g : TypeGraph) (t u : NodeId) (members : SortedSet NodeId) :
    (g.replaceMembers t members).shape? u =
      if u = t then (g.shape? t).map (Shape.withMembers members) else g.shape? u := by
  unfold replaceMembers
  rw [shape?_modifyNode]
  by_cases h : u = t
  · rw [if_pos h, if_pos h]
    simp only [shape?, Option.map_map]
    rfl
  · rw [if_neg h, if_neg h]
    rfl

theorem shape?_replaceMembers_of_ne (g : TypeGraph) {t u : NodeId} (h : u ≠ t)
    (members : SortedSet NodeId) : (g.replaceMembers t members).shape? u = g.shape? u := by
  rw [shape?_replaceMembers, if_neg h]

/-- Whether setting members succeeds or fails, they replace the links from the node. -/
theorem setMembers_snd (g : TypeGraph) (t : NodeId) (members : SortedSet NodeId) :
    (g.setMembers t members).2 = g.replaceMembers t members := by
  unfold setMembers
  split <;> rfl

/-- A union or intersection that waits for members loses nothing when they are set. -/
theorem retains_replaceMembers {g : TypeGraph} {t : NodeId} {operation : Operation}
    (ht : g.shape? t = some (.combination operation none)) (members : SortedSet NodeId) :
    g.Retains (g.replaceMembers t members) := by
  intro u shape hshape hu
  rw [shape?_replaceMembers, if_neg, hu]
  rintro rfl
  rw [ht] at hu
  cases hu
  cases hshape

/-- The node whose members are set has them. -/
theorem shape?_replaceMembers_self {g : TypeGraph} {t : NodeId} {operation : Operation}
    {old : Option (SortedSet NodeId)} (ht : g.shape? t = some (.combination operation old))
    (members : SortedSet NodeId) :
    (g.replaceMembers t members).shape? t = some (.combination operation (some members)) := by
  rw [shape?_replaceMembers, if_pos rfl, ht]
  rfl

/-- Setting members leaves the index of shapes right. -/
theorem Indexed.replaceMembers {g : TypeGraph} (hg : g.Indexed) (t : NodeId)
    (members : SortedSet NodeId) : (g.replaceMembers t members).Indexed := by
  intro shape u hu
  obtain ⟨hshape, hold⟩ := hg shape u hu
  refine ⟨hshape, ?_⟩
  rw [shape?_replaceMembers]
  split
  · next heq =>
    subst heq
    rw [hold]
    cases shape with
    | combination operation old => cases hshape
    | primitive _ | enum _ | array _ | map _ | record _ => rfl
  · exact hold

/-- Attributes do not change shapes. -/
@[simp] theorem shape?_addAttributes (g : TypeGraph) (t u : NodeId) (attributes : Attributes) :
    (g.addAttributes t attributes).shape? u = g.shape? u := by
  unfold addAttributes
  split
  · rfl
  · rw [shape?_modifyNode]
    by_cases h : u = t
    · rw [if_pos h, h]
      rfl
    · rw [if_neg h]

theorem keeps_addAttributes (g : TypeGraph) (t : NodeId) (attributes : Attributes) :
    g.Keeps (g.addAttributes t attributes) := by
  intro u shape hu
  rwa [shape?_addAttributes]

@[simp] theorem length_replaceMembers (g : TypeGraph) (t : NodeId) (members : SortedSet NodeId) :
    (g.replaceMembers t members).nodes.length = g.nodes.length := by
  simp [replaceMembers, modifyNode, addLinks]

@[simp] theorem length_addAttributes (g : TypeGraph) (t : NodeId) (attributes : Attributes) :
    (g.addAttributes t attributes).nodes.length = g.nodes.length := by
  unfold addAttributes
  split
  · rfl
  · simp [modifyNode]

@[simp] theorem interned_addAttributes (g : TypeGraph) (t : NodeId) (attributes : Attributes) :
    (g.addAttributes t attributes).interned = g.interned := by
  unfold addAttributes
  split <;> rfl

@[simp] theorem topLevels_addAttributes (g : TypeGraph) (t : NodeId) (attributes : Attributes) :
    (g.addAttributes t attributes).topLevels = g.topLevels := by
  unfold addAttributes
  split <;> rfl

end TypeGraph

end ShapeGraph
