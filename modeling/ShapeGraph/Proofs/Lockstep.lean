import ShapeGraph.Proofs.Effects

/-!
# Two conversions in step

Two conversions that do the same on different progress, or nearly the same on the same progress, can be
followed side by side.  As long as the progress of one corresponds to that of the other, both give the
same result or the same failure.  What has to be known for that is how the operations on graphs and the
bindings of paths act on two progresses that correspond; everything else follows from how conversions
are put together.

## Main definitions

* `Conversion.Coupling` — when two progresses correspond, and which failures are let pass.
* `Conversion.Lockstep` — two conversions have the same outcome from two progresses.
* `Conversion.InStep` — they have it from any two progresses that correspond.
* `Conversion.Coupling.Stable` — operations on graphs keep two progresses corresponding.
* `Conversion.Coupling.single` — the coupling of a conversion with itself, for what a single conversion
  keeps.

## Main results

* `Conversion.Lockstep.andThen` — one conversion after another.
* `Conversion.Coupling.Stable.intern`, `Conversion.Coupling.Stable.bind`, … — one rule for each
  operation.

## Design

Attributes are the one thing in which two corresponding progresses may differ, or to which attention is
paid for some nodes only.  A coupling therefore says which nodes are loose: any attributes may be
attached to these.
-/

set_option autoImplicit false

namespace ShapeGraph

/-- Whether what a schema says of itself is attached to nodes of the shape.  Other nodes are shared by
schemas that have nothing else in common. -/
def Shape.takesAttributes : Shape → Bool
  | .enum _ | .record _ | .combination _ _ => true
  | .primitive _ | .array _ | .map _ => false

namespace Conversion

variable {σ α β : Type}

/-! ## Outcomes of two conversions -/

/-- How the progress of one conversion is compared with that of another. -/
structure Coupling (σ : Type) where
  /-- The one progress corresponds to the other. -/
  relates : Progress σ → Progress σ → Prop
  /-- What holds when both conversions fail. -/
  fails : Failure → Progress σ → Progress σ → Prop
  /-- Failures of the one conversion after which nothing is asked of the other. -/
  cuts : Failure → Prop
  /-- Nodes to which any attributes may be attached. -/
  loose : Progress σ → NodeId → Prop

/-- From two progresses, both conversions give the same result and leave progress behind of which `post`
holds, or both fail with the same failure. -/
def Lockstep (k : Coupling σ) (x y : Conversion σ α) (s s' : Progress σ)
    (post : α → Progress σ → Progress σ → Prop) : Prop :=
  Meets x s (fun a t => ∃ t', y s' = .ok a t' ∧ post a t t') fun e t =>
    k.cuts e ∨ ∃ t', y s' = .error e t' ∧ k.fails e t t'

/-- From any two progresses that correspond, both conversions have the same outcome, and what they leave
behind corresponds. -/
def InStep (k : Coupling σ) (x y : Conversion σ α) : Prop :=
  ∀ ⦃s s'⦄, k.relates s s' → Lockstep k x y s s' fun _ => k.relates

/-- Where the first part gives a result, the second one takes over. -/
theorem bind_eq_of_ok {x : Conversion σ α} {f : α → Conversion σ β} {s t : Progress σ} {a : α}
    (h : x s = .ok a t) : (x >>= f) s = f a t := by
  change EStateM.bind x f s = f a t
  unfold EStateM.bind
  rw [h]

/-- Where the first part fails, so does the whole. -/
theorem bind_eq_of_error {x : Conversion σ α} {s t : Progress σ} {e : Failure}
    (h : x s = .error e t) (f : α → Conversion σ β) : (x >>= f) s = .error e t := by
  change EStateM.bind x f s = .error e t
  unfold EStateM.bind
  rw [h]

namespace Lockstep

variable {k : Coupling σ} {x y : Conversion σ α} {f g : α → Conversion σ β} {s s' : Progress σ}

/-- The condition on results may be weakened. -/
theorem imp {post post' : α → Progress σ → Progress σ → Prop} (h : Lockstep k x y s s' post)
    (hpost : ∀ a t t', post a t t' → post' a t t') : Lockstep k x y s s' post' :=
  Meets.imp h fun a t ⟨t', hy, ht⟩ => ⟨t', hy, hpost a t t' ht⟩

/-- What is known of the one conversion alone holds as well. -/
theorem and_meets {post : α → Progress σ → Progress σ → Prop} {middle : α → Progress σ → Prop}
    {fault : Failure → Progress σ → Prop} (h : Lockstep k x y s s' post)
    (hx : Meets x s middle fault) :
    Lockstep k x y s s' fun a t t' => post a t t' ∧ middle a t := by
  refine (Meets.and h hx).mono ?_ fun e t he => he.1
  rintro a t ⟨⟨t', hy, hpost⟩, hmiddle⟩
  exact ⟨t', hy, hpost, hmiddle⟩

/-- One conversion after another: the second one takes over where the first gives a result. -/
theorem andThen {post : β → Progress σ → Progress σ → Prop}
    (h : Lockstep k x y s s' fun a t t' => Lockstep k (f a) (g a) t t' post) :
    Lockstep k (x >>= f) (y >>= g) s s' post := by
  refine Meets.andThen (Meets.mono h ?_ ?_)
  · rintro a t ⟨t', hy, ht⟩
    rw [bind_eq_of_ok hy]
    exact ht
  · rintro e t (hcut | ⟨t', hy, hfails⟩)
    · exact Or.inl hcut
    · exact Or.inr ⟨t', bind_eq_of_error hy g, hfails⟩

/-- One conversion after another, when it is known what the first one gives. -/
theorem seq {middle : α → Progress σ → Progress σ → Prop}
    {post : β → Progress σ → Progress σ → Prop} (h : Lockstep k x y s s' middle)
    (hf : ∀ a t t', middle a t t' → Lockstep k (f a) (g a) t t' post) :
    Lockstep k (x >>= f) (y >>= g) s s' post :=
  andThen (h.imp hf)

theorem pure {a : α} {post : α → Progress σ → Progress σ → Prop} (h : post a s s') :
    Lockstep k (Pure.pure a) (Pure.pure a) s s' post :=
  Meets.pure ⟨s', rfl, h⟩

theorem throw {e : Failure} {post : α → Progress σ → Progress σ → Prop} (h : k.fails e s s') :
    Lockstep k (MonadExcept.throw e) (MonadExcept.throw e) s s' post :=
  Meets.throw (Or.inr ⟨s', rfl, h⟩)

/-- A look at both progresses. -/
theorem get {f g : Progress σ → Conversion σ β} {post : β → Progress σ → Progress σ → Prop}
    (h : Lockstep k (f s) (g s') s s' post) :
    Lockstep k (MonadState.get >>= f) (MonadState.get >>= g) s s' post :=
  Meets.andThen (Meets.get h)

/-- A result that does not touch the progress. -/
theorem ofResult {result : Except Failure α} {post : α → Progress σ → Progress σ → Prop}
    (hok : ∀ a, result = .ok a → post a s s')
    (herror : ∀ e, result = .error e → k.fails e s s') :
    Lockstep k (Conversion.ofResult result) (Conversion.ofResult result) s s' post := by
  cases result with
  | ok a => exact pure (hok a rfl)
  | error e => exact throw (herror e rfl)

/-- A change of both graphs that gives the same result. -/
theorem onGraph {f g : TypeGraph → α × TypeGraph} {post : α → Progress σ → Progress σ → Prop}
    (heq : (g s'.graph).1 = (f s.graph).1)
    (h : post (f s.graph).1 { s with graph := (f s.graph).2 }
      { s' with graph := (g s'.graph).2 }) :
    Lockstep k (Conversion.onGraph f) (Conversion.onGraph g) s s' post := by
  refine Meets.onGraph ⟨_, ?_, h⟩
  rw [← heq]
  rfl

/-- The node that a path stands for. -/
theorem bound? {path : Reference} {post : Option NodeId → Progress σ → Progress σ → Prop}
    (heq : s'.nodeOf? path = s.nodeOf? path) (h : post (s.nodeOf? path) s s') :
    Lockstep k (Conversion.bound? path) (Conversion.bound? path) s s' post := by
  refine Meets.bound? ⟨s', ?_, h⟩
  rw [← heq]
  rfl

end Lockstep

namespace InStep

variable {k : Coupling σ} {x y : Conversion σ α} {f g : α → Conversion σ β}

theorem andThen (h : InStep k x y) (hf : ∀ a, InStep k (f a) (g a)) :
    InStep k (x >>= f) (y >>= g) :=
  fun _ _ hs => (h hs).seq fun a _ _ ht => hf a ht

theorem pure (a : α) : InStep k (Pure.pure a : Conversion σ α) (Pure.pure a) :=
  fun _ _ hs => Lockstep.pure hs

theorem throw {e : Failure} (he : ∀ s s', k.relates s s' → k.fails e s s') :
    InStep k (MonadExcept.throw e : Conversion σ α) (MonadExcept.throw e) :=
  fun s s' hs => Lockstep.throw (he s s' hs)

theorem ofResult {result : Except Failure α}
    (h : ∀ e, result = .error e → ∀ s s', k.relates s s' → k.fails e s s') :
    InStep k (Conversion.ofResult result : Conversion σ α) (Conversion.ofResult result) :=
  fun s s' hs => Lockstep.ofResult (fun _ _ => hs) fun e he => h e he s s' hs

end InStep

/-! ## Operations -/

/-- Operations on graphs, which attach `a` to loose nodes on the one side and `a'` on the other, and new
bindings of paths that lead nowhere in the text keep two progresses corresponding.  Every failure but a
cycle of references is let pass. -/
structure Coupling.Stable (k : Coupling σ) (a a' : Attributes) : Prop where
  nodeOf?_eq : ∀ {s s'}, k.relates s s' → ∀ path, s'.nodeOf? path = s.nodeOf? path
  interned : ∀ {s s'} shape, shape.isCombination = false → k.relates s s' →
    (s'.graph.intern shape).1 = (s.graph.intern shape).1 ∧
      k.relates { s with graph := (s.graph.intern shape).2 }
        { s' with graph := (s'.graph.intern shape).2 } ∧
      (shape.takesAttributes = true →
        k.loose { s with graph := (s.graph.intern shape).2 } (s.graph.intern shape).1)
  declared : ∀ {s s'} operation, k.relates s s' →
    s'.graph.nodes.length = s.graph.nodes.length ∧
      k.relates { s with graph := (s.graph.declare operation).2 }
        { s' with graph := (s'.graph.declare operation).2 }
  filled : ∀ {s s'} t members, k.relates s s' →
    (s'.graph.setMembers t members).1 = (s.graph.setMembers t members).1 ∧
      k.relates { s with graph := s.graph.replaceMembers t members }
        { s' with graph := s'.graph.replaceMembers t members }
  attributed : ∀ {s s'} t, k.loose s t → k.relates s s' →
    k.relates { s with graph := s.graph.addAttributes t a }
      { s' with graph := s'.graph.addAttributes t a' }
  loose_of_union : ∀ {s t members},
    s.graph.shape? t = some (.combination .union members) → k.loose s t
  keyed : ∀ {s s'} path t, ¬ path.IsAddressable → s.nodeOf? path = none → k.relates s s' →
    k.relates { s with bound := (path, t) :: s.bound } { s' with bound := (path, t) :: s'.bound }
  excuses : ∀ e : Failure, e.isCycle = false → ∀ s s', k.relates s s' → k.fails e s s'

/-- The binding of a path, where a new one keeps two progresses corresponding. -/
theorem bind_inStep {k : Coupling σ} {path : Reference} {t : NodeId}
    (heq : ∀ {s s'}, k.relates s s' → s'.nodeOf? path = s.nodeOf? path)
    (hexcuses : ∀ s s', k.relates s s' → k.fails (.conflictingBinding path) s s')
    (hbind : ∀ {s s'}, s.nodeOf? path = none → k.relates s s' →
      k.relates { s with bound := (path, t) :: s.bound }
        { s' with bound := (path, t) :: s'.bound }) :
    InStep k (bind path t) (bind path t) := by
  intro s s' hs
  refine Lockstep.andThen (Lockstep.bound? (heq hs) ?_)
  cases hpath : s.nodeOf? path with
  | none =>
    change ∃ t', _ = EStateM.Result.ok () t' ∧ _
    exact ⟨_, rfl, hbind hpath hs⟩
  | some other =>
    dsimp only
    split
    · exact Lockstep.pure hs
    · exact Lockstep.throw (hexcuses s s' hs)

namespace Coupling.Stable

variable {k : Coupling σ} {a a' : Attributes} (stable : k.Stable a a')

include stable

/-- The node of a shape other than a union or intersection is loose if attributes may be attached to it. -/
theorem intern {shape : Shape} (hshape : shape.isCombination = false) {s s' : Progress σ}
    (hs : k.relates s s') :
    Lockstep k (Conversion.onGraph (·.intern shape)) (Conversion.onGraph (·.intern shape)) s s'
      fun t u u' => k.relates u u' ∧ (shape.takesAttributes = true → k.loose u t) :=
  have h := stable.interned shape hshape hs
  Lockstep.onGraph h.1 h.2

theorem intern_inStep {shape : Shape} (hshape : shape.isCombination = false) :
    InStep k (Conversion.onGraph (·.intern shape)) (Conversion.onGraph (·.intern shape)) :=
  fun _ _ hs => (stable.intern hshape hs).imp fun _ _ _ ht => ht.1

/-- A new union or intersection waits for its members. -/
theorem declare (operation : Operation) {s s' : Progress σ} (hs : k.relates s s') :
    Lockstep k (Conversion.declare operation) (Conversion.declare operation) s s' fun t u u' =>
      k.relates u u' ∧ u.graph.shape? t = some (.combination operation none) := by
  obtain ⟨hlength, hrelates⟩ := stable.declared operation hs
  refine Lockstep.onGraph hlength ⟨hrelates, ?_⟩
  exact (TypeGraph.shape?_allocate _ _ _).trans (if_pos rfl)

theorem declare_inStep (operation : Operation) :
    InStep k (Conversion.declare operation) (Conversion.declare operation) :=
  fun _ _ hs => (stable.declare operation hs).imp fun _ _ _ ht => ht.1

theorem setMembers (t : NodeId) (members : SortedSet NodeId) :
    InStep k (Conversion.setMembers t members) (Conversion.setMembers t members) := by
  intro s s' hs
  obtain ⟨hresult, hrelates⟩ := stable.filled t members hs
  rw [← TypeGraph.setMembers_snd, ← TypeGraph.setMembers_snd] at hrelates
  refine Lockstep.andThen (Lockstep.onGraph hresult (Lockstep.ofResult (fun _ _ => hrelates) ?_))
  intro e he
  refine stable.excuses e ?_ _ _ hrelates
  unfold TypeGraph.setMembers at he
  split at he <;> cases he
  rfl

theorem addAttributes {t : NodeId} {s s' : Progress σ} (ht : k.loose s t) (hs : k.relates s s') :
    Lockstep k (Conversion.addAttributes t a) (Conversion.addAttributes t a') s s'
      fun _ => k.relates :=
  Lockstep.onGraph rfl (stable.attributed t ht hs)

theorem bind {path : Reference} (hpath : ¬ path.IsAddressable) (t : NodeId) :
    InStep k (Conversion.bind path t) (Conversion.bind path t) :=
  bind_inStep (fun hs => stable.nodeOf?_eq hs path) (stable.excuses _ rfl)
    fun hfree hs => stable.keyed path t hpath hfree hs

theorem throw {e : Failure} (he : e.isCycle = false) :
    InStep k (MonadExcept.throw e : Conversion σ α) (MonadExcept.throw e) :=
  InStep.throw (stable.excuses e he)

end Coupling.Stable

/-! ## A single conversion -/

/-- The coupling of a conversion with itself: what holds of its progress, and how it may fail. -/
def Coupling.single (inv : Progress σ → Prop) (allowed : Failure → Prop)
    (loose : Progress σ → NodeId → Prop) : Coupling σ where
  relates s s' := s' = s ∧ inv s
  fails e _ _ := allowed e
  cuts _ := False
  loose := loose

section Single

variable {inv : Progress σ → Prop} {allowed : Failure → Prop} {loose : Progress σ → NodeId → Prop}
  {x : Conversion σ α} {s : Progress σ}

/-- What a conversion keeps in step with itself, it keeps. -/
theorem InStep.meets (h : InStep (.single inv allowed loose) x x) (hs : inv s) :
    Meets x s (fun _ s' => inv s') fun e _ => allowed e := by
  refine Meets.mono (h ⟨rfl, hs⟩) ?_ ?_
  · rintro a t ⟨t', -, -, ht⟩
    exact ht
  · rintro e t (hcut | ⟨t', -, he⟩)
    · exact hcut.elim
    · exact he

/-- What a conversion keeps, it keeps in step with itself. -/
theorem Meets.lockstep (h : Meets x s (fun _ s' => inv s') fun e _ => allowed e) :
    Lockstep (.single inv allowed loose) x x s s
      fun _ => (Coupling.single inv allowed loose).relates := by
  unfold Lockstep Meets at *
  cases hx : x s with
  | ok a t =>
    rw [hx] at h
    exact ⟨t, rfl, rfl, h⟩
  | error e t =>
    rw [hx] at h
    exact Or.inr ⟨t, rfl, h⟩

/-- A new binding of a path. -/
theorem bind_single {path : Reference} {t : NodeId}
    (hbind : ∀ s, s.nodeOf? path = none → inv s → inv { s with bound := (path, t) :: s.bound })
    (hallowed : allowed (.conflictingBinding path)) :
    InStep (.single inv allowed loose) (bind path t) (bind path t) := by
  refine bind_inStep ?_ (fun _ _ _ => hallowed) ?_
  · rintro _ s ⟨rfl, -⟩
    rfl
  · rintro _ s hfree ⟨rfl, hs⟩
    exact ⟨rfl, hbind s hfree hs⟩

/-- Operations on graphs and new bindings keep what holds of the progress of a single conversion. -/
theorem Coupling.Stable.single {a : Attributes}
    (interned : ∀ s shape, shape.isCombination = false → inv s →
      inv { s with graph := (s.graph.intern shape).2 } ∧
        (shape.takesAttributes = true →
          loose { s with graph := (s.graph.intern shape).2 } (s.graph.intern shape).1))
    (declared : ∀ s operation, inv s → inv { s with graph := (s.graph.declare operation).2 })
    (filled : ∀ s t members, inv s → inv { s with graph := s.graph.replaceMembers t members })
    (attributed : ∀ s t, loose s t → inv s → inv { s with graph := s.graph.addAttributes t a })
    (loose_of_union : ∀ s t members,
      s.graph.shape? t = some (.combination .union members) → loose s t)
    (keyed : ∀ s path t, ¬ path.IsAddressable → s.nodeOf? path = none → inv s →
      inv { s with bound := (path, t) :: s.bound })
    (allows : ∀ e : Failure, e.isCycle = false → allowed e) :
    (Coupling.single inv allowed loose).Stable a a where
  nodeOf?_eq := by
    rintro s _ ⟨rfl, -⟩ path
    rfl
  interned := by
    rintro _ s shape hshape ⟨rfl, hs⟩
    obtain ⟨hinv, hloose⟩ := interned s shape hshape hs
    exact ⟨rfl, ⟨rfl, hinv⟩, hloose⟩
  declared := by
    rintro _ s operation ⟨rfl, hs⟩
    exact ⟨rfl, rfl, declared s operation hs⟩
  filled := by
    rintro _ s t members ⟨rfl, hs⟩
    exact ⟨rfl, rfl, filled s t members hs⟩
  attributed := by
    rintro _ s t ht ⟨rfl, hs⟩
    exact ⟨rfl, attributed s t ht hs⟩
  loose_of_union := fun {s t members} ht => loose_of_union s t members ht
  keyed := by
    rintro _ s path t hpath hfree ⟨rfl, hs⟩
    exact ⟨rfl, keyed s path t hpath hfree hs⟩
  excuses e he _ _ _ := allows e he

end Single

end Conversion

end ShapeGraph
