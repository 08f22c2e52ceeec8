import ShapeGraph.Proofs.Membership
import ShapeGraph.Proofs.Outcomes
import ShapeGraph.Proofs.Reachability

/-!
# What conversions hand over

The parts of a schema are converted one by one, and what each gives is put together in the end.  Until
then the new nodes hang on the results that have been given so far, its roots: every one of them is
finished and can be reached from a root.  A union or intersection that has been made but has no members
yet is left out of this account until it gets them; then it becomes the only root.

## Main definitions

* `Progress.Valid` — the graph is valid and paths stand for nodes that there are.
* `Progress.Yields` — all nodes that are new are finished and hang on some roots.
* `Progress.Opens` — a union or intersection has just been made.
* `Conversion.Returns` — what holds if a conversion gives a result.

## Main results

* `Progress.Yields.and`, `Progress.Yields.trans` — one conversion after another.
* `Progress.Yields.intern` — a new node takes the place of its parts as a root.
* `Progress.Opens.fill` — a node that gets its members takes their place as a root.

## Design

The primitive type `null` may be left over: the conversion of an enum asks for it even if `null` is
none of the cases.
-/

set_option autoImplicit false

namespace ShapeGraph

namespace Progress

variable {σ : Type} {s s' s'' : Progress σ} {roots roots' : NodeId → Prop}

/-! ## Valid progress -/

/-- The graph is valid, and paths stand for nodes that there are. -/
structure Valid (s : Progress σ) : Prop where
  graph : s.graph.Valid
  bound_lt : ∀ path t, s.nodeOf? path = some t → t < s.graph.nodes.length

theorem Valid.start (documents : σ) : (Progress.start documents).Valid :=
  ⟨.empty, by simp [Progress.start, nodeOf?]⟩

/-- A graph that has at least as many nodes may take the place of the graph. -/
theorem Valid.setGraph (h : s.Valid) {g : TypeGraph} (hg : g.Valid) (hkeeps : s.graph.Keeps g) :
    Valid { s with graph := g } :=
  ⟨hg, fun path t ht => Nat.lt_of_lt_of_le (h.bound_lt path t ht) hkeeps.length_le⟩

theorem Valid.bindPath (h : s.Valid) (path : Reference) {t : NodeId}
    (ht : t < s.graph.nodes.length) : Valid { s with bound := (path, t) :: s.bound } := by
  refine ⟨h.graph, fun other n hn => ?_⟩
  rw [nodeOf?_bind] at hn
  split at hn
  · cases hn
    exact ht
  · exact h.bound_lt other n hn

/-! ## New nodes and their roots -/

/-- Between the two, nothing has been lost, and all nodes that are new are finished and hang on the
roots. -/
structure Yields (s : Progress σ) (roots : NodeId → Prop) (s' : Progress σ) : Prop where
  valid : s'.Valid
  keeps : s.graph.Keeps s'.graph
  topLevels_eq : s'.graph.topLevels = s.graph.topLevels
  roots_lt : ∀ r, roots r → r < s'.graph.nodes.length
  finished : ∀ t shape, s.graph.nodes.length ≤ t → s'.graph.shape? t = some shape →
    shape.isFinished = true
  reached : ∀ t, s.graph.nodes.length ≤ t → t < s'.graph.nodes.length →
    s'.graph.shape? t = some (.primitive .null) ∨ ∃ r, roots r ∧ s'.graph.Reaches r t

/-- Without any change there are no new nodes. -/
theorem Valid.yields (h : s.Valid) (hroots : ∀ r, roots r → r < s.graph.nodes.length) :
    s.Yields roots s :=
  ⟨h, .refl _, rfl, hroots,
    fun _ _ hnew ht => absurd (TypeGraph.lt_length_of_shape? ht) (Nat.not_lt.2 hnew),
    fun _ hnew hold => absurd hold (Nat.not_lt.2 hnew)⟩

/-- Nothing hangs on no roots. -/
theorem Valid.yields_nothing (h : s.Valid) (hroots : ∀ r, ¬ roots r) : s.Yields roots s :=
  h.yields fun r hr => absurd hr (hroots r)

namespace Yields

/-- The second conversion gives new roots, on which those of the first one hang. -/
theorem trans (h : s.Yields roots s') (h' : s'.Yields roots' s'')
    (hroots : ∀ r, roots r → ∃ r', roots' r' ∧ s''.graph.Reaches r' r) : s.Yields roots' s'' := by
  refine ⟨h'.valid, h.keeps.trans h'.keeps, h'.topLevels_eq.trans h.topLevels_eq, h'.roots_lt, ?_, ?_⟩
  · intro t shape hnew ht
    rcases Nat.lt_or_ge t s'.graph.nodes.length with hold | hnew'
    · obtain ⟨same, hsame⟩ := TypeGraph.exists_shape? hold
      rw [h'.keeps t same hsame] at ht
      cases ht
      exact h.finished t shape hnew hsame
    · exact h'.finished t shape hnew' ht
  · intro t hnew ht
    rcases Nat.lt_or_ge t s'.graph.nodes.length with hold | hnew'
    · rcases h.reached t hnew hold with hnull | ⟨r, hr, hreaches⟩
      · exact Or.inl (h'.keeps t _ hnull)
      · obtain ⟨r', hr', hreaches'⟩ := hroots r hr
        exact Or.inr ⟨r', hr', hreaches'.trans (hreaches.mono h'.keeps.retains)⟩
    · exact h'.reached t hnew' ht

/-- The results of two conversions are kept side by side. -/
theorem and (h : s.Yields roots s') (h' : s'.Yields roots' s'') :
    s.Yields (fun r => roots r ∨ roots' r) s'' := by
  have hboth : s'.Yields (fun r => roots r ∨ roots' r) s'' := by
    refine ⟨h'.valid, h'.keeps, h'.topLevels_eq, ?_, h'.finished, ?_⟩
    · rintro r (hr | hr)
      · exact Nat.lt_of_lt_of_le (h.roots_lt r hr) h'.keeps.length_le
      · exact h'.roots_lt r hr
    · intro t hnew ht
      refine (h'.reached t hnew ht).imp_right ?_
      rintro ⟨r, hr, hreaches⟩
      exact ⟨r, Or.inr hr, hreaches⟩
  exact h.trans hboth fun r hr => ⟨r, Or.inl hr, Relation.ReflTransGen.refl⟩

/-- Only what the roots are counts. -/
theorem congr (h : s.Yields roots s') (hroots : ∀ r, roots' r ↔ roots r) : s.Yields roots' s' := by
  rwa [show roots' = roots from funext fun r => propext (hroots r)]

/-- The primitive type `null` need not be a root. -/
theorem drop_null {t : NodeId} (h : s.Yields (· = t) s')
    (ht : s'.graph.shape? t = some (.primitive .null)) : s.Yields (fun _ => False) s' := by
  refine ⟨h.valid, h.keeps, h.topLevels_eq, fun _ hr => hr.elim, h.finished, ?_⟩
  intro u hnew hu
  rcases h.reached u hnew hu with hnull | ⟨r, rfl, hreaches⟩
  · exact Or.inl hnull
  · -- `null` has no parts, so it reaches nothing but itself.
    rcases Relation.ReflTransGen.cases_head hreaches with rfl | ⟨v, ⟨shape, role, hshape, hpart⟩, -⟩
    · exact Or.inl ht
    · rw [ht] at hshape
      cases hshape
      cases hpart

theorem setBound (h : s.Yields roots s') (path : Reference) {t : NodeId}
    (ht : t < s'.graph.nodes.length) :
    s.Yields roots { s' with bound := (path, t) :: s'.bound } :=
  ⟨h.valid.bindPath path ht, h.keeps, h.topLevels_eq, h.roots_lt, h.finished, h.reached⟩

theorem setAttributes (h : s.Yields roots s') (t : NodeId) (attributes : Attributes) :
    s.Yields roots { s' with graph := s'.graph.addAttributes t attributes } := by
  have hkeeps := TypeGraph.keeps_addAttributes s'.graph t attributes
  have hyields : s'.Yields roots { s' with graph := s'.graph.addAttributes t attributes } := by
    refine ⟨h.valid.setGraph (h.valid.graph.addAttributes t attributes) hkeeps, hkeeps, ?_, ?_, ?_, ?_⟩
    · exact TypeGraph.topLevels_addAttributes s'.graph t attributes
    · intro r hr
      rw [TypeGraph.length_addAttributes]
      exact h.roots_lt r hr
    · intro u shape hnew hu
      rw [TypeGraph.shape?_addAttributes] at hu
      exact absurd (TypeGraph.lt_length_of_shape? hu) (Nat.not_lt.2 hnew)
    · intro u hnew hu
      rw [TypeGraph.length_addAttributes] at hu
      exact absurd hu (Nat.not_lt.2 hnew)
  exact h.trans hyields fun r hr => ⟨r, hr, Relation.ReflTransGen.refl⟩

end Yields

/-- A union or intersection has just been made, and nothing else has changed in the graph. -/
structure Opens (s : Progress σ) (operation : Operation) (t : NodeId) (s' : Progress σ) : Prop where
  valid : s'.Valid
  keeps : s.graph.Keeps s'.graph
  topLevels_eq : s'.graph.topLevels = s.graph.topLevels
  is_new : s.graph.nodes.length ≤ t
  only_new : ∀ u shape, s.graph.nodes.length ≤ u → s'.graph.shape? u = some shape → u = t
  waits : s'.graph.shape? t = some (.combination operation none)

theorem Opens.setBound {operation : Operation} {t u : NodeId} (h : s.Opens operation t s')
    (path : Reference) (hu : u < s'.graph.nodes.length) :
    s.Opens operation t { s' with bound := (path, u) :: s'.bound } :=
  ⟨h.valid.bindPath path hu, h.keeps, h.topLevels_eq, h.is_new, h.only_new, h.waits⟩

/-- Any other new node has been made later. -/
theorem Opens.made_later {operation : Operation} {t u : NodeId} (h : s.Opens operation t s')
    (hnew : s.graph.nodes.length ≤ u) (hne : u ≠ t) : s'.graph.nodes.length ≤ u := by
  refine Nat.not_lt.1 fun hold => hne ?_
  obtain ⟨shape, hshape⟩ := TypeGraph.exists_shape? hold
  exact h.only_new u shape hnew hshape

end Progress

namespace Conversion

variable {σ α β : Type} {s s' s'' : Progress σ} {roots : NodeId → Prop}

/-- If the conversion gives a result, the condition holds of it. -/
def Returns (x : Conversion σ α) (s : Progress σ) (post : α → Progress σ → Prop) : Prop :=
  Meets x s post fun _ _ => True

end Conversion

namespace Progress

open Conversion

variable {σ α : Type} {s s' s'' : Progress σ} {roots : NodeId → Prop}

/-! ## Rules for operations -/

/-- The node of a shape takes the place of its parts as a root. -/
theorem Yields.intern (h : s.Yields roots s') {shape : Shape} (hshape : shape.isCombination = false)
    (hparts : ∀ r, roots r ↔ r ∈ shape.parts.map Prod.snd) :
    Returns (onGraph (·.intern shape)) s' fun t s'' =>
      s.Yields (· = t) s'' ∧ s''.graph.shape? t = some shape := by
  have hspec := TypeGraph.intern_spec h.valid.graph.indexed hshape
  have hvalid := h.valid.graph.intern hshape fun part hpart =>
    h.roots_lt part.2 ((hparts part.2).2 (List.mem_map_of_mem hpart))
  have honly : ∀ t, s'.graph.nodes.length ≤ t → t < (s'.graph.intern shape).2.nodes.length →
      t = (s'.graph.intern shape).1 := by
    intro t hnew ht
    obtain ⟨other, hother⟩ := TypeGraph.exists_shape? ht
    exact TypeGraph.eq_intern_of_new hnew hother
  have hstep : s'.Yields (· = (s'.graph.intern shape).1)
      { s' with graph := (s'.graph.intern shape).2 } := by
    refine ⟨h.valid.setGraph hvalid hspec.keeps, hspec.keeps, hspec.topLevels_eq, ?_, ?_, ?_⟩
    · rintro r rfl
      exact TypeGraph.lt_length_of_shape? hspec.has_shape
    · intro t other hnew ht
      obtain rfl := TypeGraph.eq_intern_of_new hnew ht
      rw [hspec.has_shape] at ht
      cases ht
      exact Shape.isFinished_of_not_isCombination hshape
    · intro t hnew ht
      exact Or.inr ⟨_, rfl, (honly t hnew ht) ▸ Relation.ReflTransGen.refl⟩
  refine Meets.onGraph ⟨h.trans hstep fun r hr => ?_, hspec.has_shape⟩
  obtain ⟨⟨role, _⟩, hpart, rfl⟩ := List.mem_map.1 ((hparts r).1 hr)
  exact ⟨_, rfl, Relation.ReflTransGen.single ⟨shape, role, hspec.has_shape, hpart⟩⟩

/-- A new union or intersection waits for its members. -/
theorem Valid.declare (h : s.Valid) (operation : Operation) :
    Returns (declare operation) s fun t s' => s.Opens operation t s' := by
  have hspec := TypeGraph.declare_spec h.graph.indexed operation
  refine Meets.onGraph ⟨h.setGraph (h.graph.declare operation) hspec.keeps, hspec.keeps,
    hspec.topLevels_eq, Nat.le_refl _, fun u shape hnew hu => ?_, hspec.has_shape⟩
  exact TypeGraph.eq_declare_of_new hnew hu

/-- A path that is not bound yet is bound to the node.  If it is bound already, it must be to the same
node, and nothing changes. -/
theorem bind_returns {path : Reference} {t : NodeId} {post : Unit → Progress σ → Prop}
    (hnew : s.nodeOf? path = none → post () { s with bound := (path, t) :: s.bound })
    (hold : s.nodeOf? path = some t → post () s) : Returns (bind path t) s post := by
  refine Meets.andThen (Meets.bound? ?_)
  cases hpath : s.nodeOf? path with
  | none => exact hnew hpath
  | some other =>
    dsimp only
    split
    · next heq => exact hold (heq ▸ hpath)
    · trivial

theorem Yields.bind (h : s.Yields roots s') {t : NodeId} (ht : t < s'.graph.nodes.length)
    (path : Reference) : Returns (Conversion.bind path t) s' fun _ s'' => s.Yields roots s'' :=
  bind_returns (fun _ => h.setBound path ht) fun _ => h

theorem Opens.bind {operation : Operation} {t : NodeId} (h : s.Opens operation t s')
    (path : Reference) :
    Returns (Conversion.bind path t) s' fun _ s'' => s.Opens operation t s'' :=
  bind_returns (fun _ => h.setBound path (TypeGraph.lt_length_of_shape? h.waits)) fun _ => h

theorem Yields.addAttributes (h : s.Yields roots s') (t : NodeId) (attributes : Attributes) :
    Returns (Conversion.addAttributes t attributes) s' fun _ s'' => s.Yields roots s'' :=
  Meets.addAttributes (h.setAttributes t attributes)

/-- A node that gets its members takes their place as a root.  An intersection must get some. -/
theorem Opens.fill {operation : Operation} {t : NodeId} (h : s.Opens operation t s')
    {members : SortedSet NodeId} (hmembers : s'.Yields (· ∈ members) s'')
    (hsome : operation = .intersection → ∃ m, m ∈ members) :
    Returns (setMembers t members) s'' fun _ s₃ => s.Yields (· = t) s₃ ∧
      s₃.graph.shape? t = some (.combination operation (some members)) := by
  have hwaits := hmembers.keeps _ _ h.waits
  have hretains := TypeGraph.retains_replaceMembers hwaits members
  have hshape := TypeGraph.shape?_replaceMembers_self hwaits members
  have hothers : ∀ {u}, u ≠ t →
      (s''.graph.replaceMembers t members).shape? u = s''.graph.shape? u :=
    fun hne => TypeGraph.shape?_replaceMembers_of_ne s''.graph hne members
  refine Meets.setMembers (by rw [hwaits]; rfl) ⟨⟨⟨?_, ?_⟩, ?_, ?_, ?_, ?_, ?_⟩, hshape⟩
  · exact hmembers.valid.graph.replaceMembers hwaits hmembers.roots_lt
  · intro path u hu
    rw [TypeGraph.length_replaceMembers]
    exact hmembers.valid.bound_lt path u hu
  · intro u shape hu
    have hne : u ≠ t := Nat.ne_of_lt (Nat.lt_of_lt_of_le (TypeGraph.lt_length_of_shape? hu) h.is_new)
    rw [hothers hne]
    exact hmembers.keeps u shape (h.keeps u shape hu)
  · exact hmembers.topLevels_eq.trans h.topLevels_eq
  · rintro r rfl
    exact TypeGraph.lt_length_of_shape? hshape
  · intro u shape hnew hu
    by_cases hne : u = t
    · rw [hne, hshape] at hu
      cases hu
      cases operation with
      | union => rfl
      | intersection =>
        obtain ⟨m, hm⟩ := hsome rfl
        have hempty : ¬ members.isEmpty = true := fun hempty => SortedSet.isEmpty_iff.1 hempty m hm
        simp [Shape.isFinished, hempty]
    · rw [hothers hne] at hu
      exact hmembers.finished u shape (h.made_later hnew hne) hu
  · intro u hnew hu
    by_cases hne : u = t
    · exact Or.inr ⟨t, rfl, hne ▸ Relation.ReflTransGen.refl⟩
    · rw [TypeGraph.length_replaceMembers] at hu
      rcases hmembers.reached u (h.made_later hnew hne) hu with hnull | ⟨r, hr, hreaches⟩
      · exact Or.inl ((hothers hne).trans hnull)
      · have hpart : (s''.graph.replaceMembers t members).HasPart t r :=
          ⟨_, .member, hshape, List.mem_map.2 ⟨r, hr, rfl⟩⟩
        exact Or.inr ⟨t, rfl, Relation.ReflTransGen.head hpart (hreaches.mono hretains)⟩

end Progress

end ShapeGraph
