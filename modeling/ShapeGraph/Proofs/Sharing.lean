import ShapeGraph.Proofs.Requests

/-!
# One node for each shape

A graph has at most one node of each primitive type, enum, array, map and class, whatever it has been
asked for, and an index that leads from the shape to the node.  Unions and intersections are new each
time and are not in the index.  Members come and go, also those of unions that are parts of indexed
shapes, but nothing else about a shape ever changes.

## Main definitions

* `TypeGraph.Shares` — the index leads to exactly the nodes that are no unions or intersections.
* `Shape.outline` — a shape without its members.
* `TypeGraph.KeepsOutlines` — all nodes keep their shapes, apart from members.

## Main results

* `TypeGraph.Shares.perform` — a request, also one that fails, leaves the index right and complete.
* `TypeGraph.keepsOutlines_perform` — a request changes no shape, apart from members.
* `TypeGraph.intern_fst_eq_iff` — asking for a shape gives a node that there is if it has the shape.
* `TypeGraph.answers_eq_iff` — when requests at different times are answered with the same node.
* `TypeGraph.performAll_shares` — what follows for all sequences of requests.
-/

set_option autoImplicit false

namespace ShapeGraph

/-! ## Shapes without members -/

/-- A shape without its members. -/
def Shape.outline : Shape → Shape
  | .combination operation _ => .combination operation none
  | shape => shape

/-- Only the members of unions and intersections are left out. -/
theorem Shape.eq_of_outline_eq {shape other : Shape} (hshape : shape.isCombination = false)
    (h : other.outline = shape.outline) : other = shape := by
  cases shape with
  | combination => cases hshape
  | primitive | enum | array | map | record => cases other <;> simp_all [outline]

theorem Shape.isCombination_of_outline_eq {shape other : Shape}
    (h : other.outline = shape.outline) : other.isCombination = shape.isCombination := by
  cases shape <;> cases other <;> simp_all [outline, isCombination]

theorem Shape.outline_withMembers (members : SortedSet NodeId) (shape : Shape) :
    (shape.withMembers members).outline = shape.outline := by
  cases shape <;> rfl

namespace TypeGraph

variable {g h k : TypeGraph}

/-- All nodes of `g` have the same shape in `h`, apart from members. -/
def KeepsOutlines (g h : TypeGraph) : Prop :=
  ∀ t shape, g.shape? t = some shape →
    ∃ other, h.shape? t = some other ∧ other.outline = shape.outline

theorem KeepsOutlines.refl (g : TypeGraph) : g.KeepsOutlines g := fun _ shape ht => ⟨shape, ht, rfl⟩

theorem KeepsOutlines.trans (hgh : g.KeepsOutlines h) (hhk : h.KeepsOutlines k) :
    g.KeepsOutlines k := by
  intro t shape ht
  obtain ⟨middle, hmiddle, heq⟩ := hgh t shape ht
  obtain ⟨last, hlast, heq'⟩ := hhk t middle hmiddle
  exact ⟨last, hlast, heq'.trans heq⟩

theorem Keeps.keepsOutlines (hgh : g.Keeps h) : g.KeepsOutlines h :=
  fun t shape ht => ⟨shape, hgh t shape ht, rfl⟩

/-- A node that is no union or intersection keeps its shape for good. -/
theorem KeepsOutlines.shape?_eq (hgh : g.KeepsOutlines h) {t : NodeId} {shape : Shape}
    (hshape : shape.isCombination = false) (ht : g.shape? t = some shape) :
    h.shape? t = some shape := by
  obtain ⟨other, hother, heq⟩ := hgh t shape ht
  rw [hother, Shape.eq_of_outline_eq hshape heq]

theorem keepsOutlines_replaceMembers (g : TypeGraph) (t : NodeId) (members : SortedSet NodeId) :
    g.KeepsOutlines (g.replaceMembers t members) := by
  intro u shape hu
  rw [shape?_replaceMembers]
  split
  · next heq =>
    subst heq
    exact ⟨shape.withMembers members, by rw [hu]; rfl, Shape.outline_withMembers members shape⟩
  · exact ⟨shape, hu, rfl⟩

/-- A request changes no shape, apart from members. -/
theorem keepsOutlines_perform (g : TypeGraph) (r : Request) : g.KeepsOutlines (g.perform r).2 :=
  perform_preserves r (fun shape _ => (keeps_intern g shape).keepsOutlines)
    (fun _ => (keeps_allocate g _).keepsOutlines)
    (fun t members _ => keepsOutlines_replaceMembers g t members)
    (fun t attributes _ => (keeps_addAttributes g t attributes).keepsOutlines)
    fun _ _ => KeepsOutlines.refl g

theorem keepsOutlines_performAll (g : TypeGraph) (requests : List Request) :
    g.KeepsOutlines (g.performAll requests) :=
  performAll_preserves (fun h r hgh => KeepsOutlines.trans hgh (keepsOutlines_perform h r)) requests
    (KeepsOutlines.refl g)

/-! ## The index -/

/-- The index leads to exactly the nodes that are no unions or intersections, each from its shape. -/
structure Shares (g : TypeGraph) : Prop where
  indexed : g.Indexed
  consed : g.Consed

namespace Shares

theorem empty : Shares .empty := ⟨.empty, .empty⟩

theorem lookup_iff (hg : g.Shares) (shape : Shape) (t : NodeId) :
    g.interned.lookup shape = some t ↔ shape.isCombination = false ∧ g.shape? t = some shape :=
  ⟨hg.indexed shape t, fun ⟨hshape, ht⟩ => hg.consed t shape hshape ht⟩

/-- A request leaves the index right and complete. -/
theorem perform (hg : g.Shares) (r : Request) : (g.perform r).2.Shares := by
  refine perform_preserves r (fun shape hshape => ?_) (fun operation => ?_) (fun t members _ => ?_)
    (fun t attributes _ => ?_) fun name t => ?_
  · exact ⟨(intern_spec hg.indexed hshape).indexed, hg.consed.intern shape⟩
  · exact ⟨(declare_spec hg.indexed operation).indexed, hg.consed.declare operation⟩
  · exact ⟨hg.indexed.replaceMembers t members, hg.consed.replaceMembers t members⟩
  · exact ⟨hg.indexed.of_retains (keeps_addAttributes g t attributes).retains
      (interned_addAttributes g t attributes), hg.consed.addAttributes t attributes⟩
  · exact ⟨hg.indexed, hg.consed⟩

theorem performAll (hg : g.Shares) (requests : List Request) : (g.performAll requests).Shares :=
  performAll_preserves (fun _ r h => h.perform r) requests hg

end Shares

/-! ## Answers -/

/-- Asking for a shape gives a node that there already is just in case it has the shape. -/
theorem intern_fst_eq_iff (hg : g.Shares) {shape : Shape} (hshape : shape.isCombination = false)
    {t : NodeId} {other : Shape} (ht : g.shape? t = some other) :
    (g.intern shape).1 = t ↔ other = shape := by
  have hspec := intern_spec hg.indexed hshape
  constructor
  · rintro rfl
    have hsame := (hspec.keeps _ other ht).symm.trans hspec.has_shape
    exact Option.some.inj hsame
  · rintro rfl
    unfold intern
    rw [hg.consed t other hshape ht]

/-- The shape that a node has right after a request has been answered with it. -/
theorem shape?_of_answer (hg : g.Shares) {r : Request} {t : NodeId}
    (h : (g.perform r).1 = .ok (some t)) :
    ∃ shape, (g.perform r).2.shape? t = some shape ∧
      (r.wanted? = some shape ∨ r.wanted? = none ∧ shape.isCombination = true) := by
  rcases wanted_or_declare_of_answer h with ⟨shape, hwanted⟩ | ⟨operation, rfl⟩
  · rw [perform_of_wanted hwanted] at h ⊢
    cases h
    have hspec := intern_spec hg.indexed (Request.isCombination_of_wanted hwanted)
    exact ⟨shape, hspec.has_shape, Or.inl hwanted⟩
  · cases h
    exact ⟨_, (declare_spec hg.indexed operation).has_shape, Or.inr ⟨rfl, rfl⟩⟩

/-- A request is answered with a node that there already is just in case it wants a node of its
shape. -/
theorem answer_eq_iff (hg : g.Shares) {r : Request} {t u : NodeId} {shape : Shape}
    (ht : g.shape? t = some shape) (hu : (g.perform r).1 = .ok (some u)) :
    t = u ↔ r.wanted? = some shape := by
  rcases wanted_or_declare_of_answer hu with ⟨wanted, hwanted⟩ | ⟨operation, rfl⟩
  · rw [perform_of_wanted hwanted] at hu
    cases hu
    rw [eq_comm, intern_fst_eq_iff hg (Request.isCombination_of_wanted hwanted) ht, hwanted,
      Option.some.injEq, eq_comm]
  · cases hu
    refine iff_of_false ?_ (by rintro ⟨⟩)
    rintro rfl
    rw [(declare_spec hg.indexed operation).is_new] at ht
    cases ht

/-- Two requests at different times are answered with the same node just in case they want nodes of the
same shape. -/
theorem answers_eq_iff (hg : g.Shares) {r r' : Request} {between : List Request} {t u : NodeId}
    (ht : (g.perform r).1 = .ok (some t))
    (hu : (((g.perform r).2.performAll between).perform r').1 = .ok (some u)) :
    t = u ↔ ∃ shape, r.wanted? = some shape ∧ r'.wanted? = some shape := by
  obtain ⟨shape, hshape, hwants⟩ := shape?_of_answer hg ht
  obtain ⟨other, hother, houtline⟩ :=
    keepsOutlines_performAll (g.perform r).2 between t shape hshape
  rw [answer_eq_iff ((hg.perform r).performAll between) hother hu]
  rcases hwants with hwanted | ⟨hwanted, hcombination⟩
  · obtain rfl := Shape.eq_of_outline_eq (Request.isCombination_of_wanted hwanted) houtline
    simp [hwanted]
  · -- What a new union or intersection has become is not the answer to any later request.
    rw [hwanted]
    refine iff_of_false (fun hwanted' => ?_) (by rintro ⟨_, ⟨⟩, _⟩)
    have hfalse := Request.isCombination_of_wanted hwanted'
    rw [Shape.isCombination_of_outline_eq houtline, hcombination] at hfalse
    cases hfalse

/-! ## Main results -/

/-- Whatever a graph has been asked for, requests that have failed included: the index leads from a
shape to a node just in case the node has the shape and is no union or intersection; no two such nodes
have the same shape, and they keep it for good.  A request for such a shape is answered with a node
that has it, and a request for a union or intersection with a new node.  Two requests at different
times are answered with the same node just in case they want nodes of the same shape.  The nodes in a
request are meant to be handles that the graph has given out before. -/
theorem performAll_shares (requests : List Request) :
    let g := empty.performAll requests
    (∀ shape t, g.interned.lookup shape = some t ↔
      shape.isCombination = false ∧ g.shape? t = some shape) ∧
    (∀ shape t u, shape.isCombination = false → g.shape? t = some shape → g.shape? u = some shape →
      t = u) ∧
    (∀ shape t later, shape.isCombination = false → g.shape? t = some shape →
      (g.performAll later).shape? t = some shape) ∧
    (∀ r shape, r.wanted? = some shape → ∃ t, (g.perform r).1 = .ok (some t) ∧
      (g.perform r).2.shape? t = some shape) ∧
    (∀ operation, ∃ t, (g.perform (.declare operation)).1 = .ok (some t) ∧ g.shape? t = none ∧
      (g.perform (.declare operation)).2.shape? t = some (.combination operation none)) ∧
    ∀ r between r' t u, (g.perform r).1 = .ok (some t) →
      (((g.perform r).2.performAll between).perform r').1 = .ok (some u) →
      (t = u ↔ ∃ shape, r.wanted? = some shape ∧ r'.wanted? = some shape) := by
  intro g
  have hg : g.Shares := Shares.empty.performAll requests
  refine ⟨hg.lookup_iff, fun shape t u hshape => hg.consed.unique hshape,
    fun shape t later hshape => (keepsOutlines_performAll g later).shape?_eq hshape, ?_, ?_, ?_⟩
  · intro r shape hwanted
    rw [perform_of_wanted hwanted]
    exact ⟨_, rfl, (intern_spec hg.indexed (Request.isCombination_of_wanted hwanted)).has_shape⟩
  · intro operation
    have hspec := declare_spec hg.indexed operation
    exact ⟨_, rfl, hspec.is_new, hspec.has_shape⟩
  · exact fun r between r' t u => answers_eq_iff hg

/-- A primitive type that has been asked for in vain to take members is still the one that is found when
it is asked for again, and neither is it the node of an array. -/
theorem performAll_shares_string :
    let g := empty.performAll [.declare .union]
    let string := Request.primitive .string
    let between := [Request.setMembers 1 ∅, .setMembers 0 (.singleton 1)]
    let h := (g.perform string).2.performAll between
    (g.perform string).1 = .ok (some 1) ∧ (h.perform string).1 = .ok (some 1) ∧
      (h.perform (.array 1)).1 = .ok (some 2) ∧
      ((1 : NodeId) = 1 ↔ ∃ shape, string.wanted? = some shape ∧ string.wanted? = some shape) ∧
      ((1 : NodeId) = 2 ↔ ∃ shape, string.wanted? = some shape ∧
        (Request.array 1).wanted? = some shape) := by
  intro g string between h
  obtain ⟨-, -, -, -, -, hanswers⟩ := performAll_shares [.declare .union]
  exact ⟨rfl, rfl, rfl, hanswers string between string 1 1 rfl rfl,
    hanswers string between (.array 1) 1 2 rfl rfl⟩

end TypeGraph

end ShapeGraph
