import ShapeGraph.Conversion.Progress
import ShapeGraph.Proofs.Corpus

/-!
# Outcomes of conversions

A conversion either gives a result or fails, and in both cases it leaves some progress behind.  What
is proved about a conversion is a condition on each of the two outcomes; this module has one rule for
each way in which conversions are put together.

## Main definitions

* `Conversion.Meets` — a conversion, run from some progress, meets a condition on its result or
  one on its failure.

## Main results

* `Conversion.Meets.andThen` — the rule for one conversion after another.
* `Conversion.Meets.mono` — conditions may be weakened.
* `Conversion.Meets.withChain`, `Conversion.Meets.setMembers`, … — one rule for each operation.
-/

set_option autoImplicit false

namespace ShapeGraph

namespace Progress

variable {σ : Type} {s : Progress σ}

/-! ## Bindings -/

/-- A new binding is found under its path, and all others are found as before. -/
theorem nodeOf?_bind (s : Progress σ) (path other : Reference) (t : NodeId) :
    ({ s with bound := (path, t) :: s.bound } : Progress σ).nodeOf? other =
      if other = path then some t else s.nodeOf? other := by
  rw [nodeOf?_eq_lookup, nodeOf?_eq_lookup, List.lookup_cons]
  by_cases h : other = path
  · simp [h]
  · have hne : (other == path) = false := by simpa using h
    simp [h, hne]

/-- A new binding of a path that stands for nothing yet loses nothing. -/
theorem bound_bind {path : Reference} (hpath : s.nodeOf? path = none) (t : NodeId)
    {other : Reference} {n : NodeId} (h : s.nodeOf? other = some n) :
    ({ s with bound := (path, t) :: s.bound } : Progress σ).nodeOf? other = some n := by
  rw [nodeOf?_bind, if_neg, h]
  rintro rfl
  rw [hpath] at h
  cases h

/-- What holds of a path unless it stands for a node already holds of one that stands for none. -/
theorem resolve_bound {path : Reference} {P : Prop} (h : (∃ t, s.nodeOf? path = some t) ∨ P)
    (hpath : s.nodeOf? path = none) : P :=
  h.resolve_left fun ⟨t, ht⟩ => by
    rw [hpath] at ht
    cases ht

end Progress

/-! ## Documents of a store -/

namespace MemoryStore

variable {store : MemoryStore} {address : String}

theorem fetch_eq_ok_iff {document : Json} :
    store.fetch address = .ok document ↔ store.documents.find? address = some document := by
  unfold fetch
  cases store.documents.find? address <;> simp

/-- A document of a store that is not there is not found. -/
theorem fetch_eq_error {e : Failure} (h : store.fetch address = .error e) :
    store.documents.find? address = none ∧ e = .documentNotFound address := by
  unfold fetch at h
  split at h
  · cases h
  · next hfind => exact ⟨hfind, (Except.error.inj h).symm⟩

end MemoryStore

namespace Conversion

variable {σ α β : Type}

/-- Run from `s`, the conversion gives a result of which `post` holds, or a failure of which `fault`
holds, each together with the progress that is left behind. -/
def Meets (x : Conversion σ α) (s : Progress σ) (post : α → Progress σ → Prop)
    (fault : Failure → Progress σ → Prop) : Prop :=
  match x s with
  | .ok a s' => post a s'
  | .error e s' => fault e s'

namespace Meets

variable {x : Conversion σ α} {f : α → Conversion σ β} {s : Progress σ}
  {post post' : α → Progress σ → Prop} {fault fault' : Failure → Progress σ → Prop}

/-! ## Reading off outcomes -/

/-- What holds of every result holds of the one that is given. -/
theorem of_eq_ok {a : α} {s' : Progress σ} (h : Meets x s post fault) (hx : x s = .ok a s') :
    post a s' := by
  simpa only [Meets, hx] using h

/-- What holds of every failure holds of the one that occurs. -/
theorem of_eq_error {e : Failure} {s' : Progress σ} (h : Meets x s post fault)
    (hx : x s = .error e s') : fault e s' := by
  simpa only [Meets, hx] using h

/-- A conversion that has no way to fail gives a result. -/
theorem exists_eq_ok (h : Meets x s post fun _ _ => False) : ∃ a s', x s = .ok a s' ∧ post a s' := by
  cases hx : x s with
  | ok a s' => exact ⟨a, s', rfl, h.of_eq_ok hx⟩
  | error e s' => exact (h.of_eq_error hx).elim

/-- Conditions may be weakened. -/
theorem mono (h : Meets x s post fault) (hpost : ∀ a s', post a s' → post' a s')
    (hfault : ∀ e s', fault e s' → fault' e s') : Meets x s post' fault' := by
  unfold Meets at h ⊢
  cases hx : x s with
  | ok a s' =>
    rw [hx] at h
    exact hpost a s' h
  | error e s' =>
    rw [hx] at h
    exact hfault e s' h

/-- The condition on results may be weakened. -/
theorem imp (h : Meets x s post fault) (hpost : ∀ a s', post a s' → post' a s') :
    Meets x s post' fault :=
  h.mono hpost fun _ _ he => he

/-- Conditions that always hold are met. -/
theorem of_forall (hpost : ∀ a s', post a s') (hfault : ∀ e s', fault e s') :
    Meets x s post fault := by
  unfold Meets
  cases x s with
  | ok a s' => exact hpost a s'
  | error e s' => exact hfault e s'

/-- Two conditions hold together. -/
theorem and (h : Meets x s post fault) (h' : Meets x s post' fault') :
    Meets x s (fun a s' => post a s' ∧ post' a s') fun e s' => fault e s' ∧ fault' e s' := by
  unfold Meets at h h' ⊢
  cases hx : x s with
  | ok a s' =>
    rw [hx] at h h'
    exact ⟨h, h'⟩
  | error e s' =>
    rw [hx] at h h'
    exact ⟨h, h'⟩

/-! ## Putting conversions together -/

/-- One conversion after another: the second one takes over where the first gives a result. -/
theorem andThen {post : β → Progress σ → Prop}
    (h : Meets x s (fun a s' => Meets (f a) s' post fault) fault) :
    Meets (x >>= f) s post fault := by
  unfold Meets at h ⊢
  change (match EStateM.bind x f s with | .ok a s' => _ | .error e s' => _)
  unfold EStateM.bind
  cases hx : x s with
  | ok a s' =>
    rw [hx] at h
    exact h
  | error e s' =>
    rw [hx] at h
    exact h

/-- One conversion after another, when it is known what the first one gives. -/
theorem seq {middle : α → Progress σ → Prop} {post : β → Progress σ → Prop}
    (h : Meets x s middle fault) (hf : ∀ a s', middle a s' → Meets (f a) s' post fault) :
    Meets (x >>= f) s post fault :=
  andThen (h.imp hf)

/-- One conversion after another for all elements of a list, where each keeps what holds of the
progress. -/
theorem forM {l : List β} {f : β → Conversion σ Unit} {inv : Progress σ → Prop}
    (h : ∀ b ∈ l, ∀ s, inv s → Meets (f b) s (fun _ s' => inv s') fault) (hs : inv s) :
    Meets (l.forM f) s (fun _ s' => inv s') fault := by
  induction l generalizing s with
  | nil => exact hs
  | cons b rest ih =>
    obtain ⟨hb, hrest⟩ := List.forall_mem_cons.1 h
    unfold List.forM
    exact (hb s hs).seq fun _ s₁ hs₁ => ih hrest hs₁

/-- A value without any conversion. -/
theorem pure {a : α} (h : post a s) : Meets (Pure.pure a) s post fault := h

/-- A failure. -/
theorem throw {e : Failure} (h : fault e s) : Meets (MonadExcept.throw e) s post fault := h

/-- A look at the progress. -/
theorem get {post : Progress σ → Progress σ → Prop} (h : post s s) :
    Meets MonadState.get s post fault := h

/-- A result that does not touch the progress. -/
theorem ofResult {result : Except Failure α} (hok : ∀ a, result = .ok a → post a s)
    (herror : ∀ e, result = .error e → fault e s) :
    Meets (Conversion.ofResult result) s post fault := by
  cases result with
  | ok a => exact hok a rfl
  | error e => exact herror e rfl

/-- A change of the graph. -/
theorem onGraph {g : TypeGraph → α × TypeGraph}
    (h : post (g s.graph).1 { s with graph := (g s.graph).2 }) :
    Meets (Conversion.onGraph g) s post fault := h

/-- The attributes of a node. -/
theorem addAttributes {t : NodeId} {attributes : Attributes} {post : Unit → Progress σ → Prop}
    (h : post () { s with graph := s.graph.addAttributes t attributes }) :
    Meets (Conversion.addAttributes t attributes) s post fault := h

/-- The members of a union or intersection. -/
theorem setMembers {t : NodeId} {members : SortedSet NodeId} {post : Unit → Progress σ → Prop}
    (ht : (s.graph.shape? t).any Shape.isCombination = true)
    (h : post () { s with graph := s.graph.replaceMembers t members }) :
    Meets (Conversion.setMembers t members) s post fault := by
  refine andThen (onGraph ?_)
  refine ofResult ?_ ?_
  · intro _ _
    have hgraph : (s.graph.setMembers t members).2 = s.graph.replaceMembers t members := by
      simp only [TypeGraph.setMembers, ht, if_true]
    simpa only [hgraph] using h
  · intro e he
    simp only [TypeGraph.setMembers, ht, if_true] at he
    cases he

/-- The node that a path stands for. -/
theorem bound? {path : Reference} {post : Option NodeId → Progress σ → Prop}
    (h : post (s.nodeOf? path) s) : Meets (Conversion.bound? path) s post fault := h

/-- The node that a path stands for, or else what another conversion gives. -/
theorem boundOr {path : Reference} {y : Conversion σ NodeId} {post : NodeId → Progress σ → Prop}
    (hold : ∀ t, s.nodeOf? path = some t → post t s)
    (hnew : s.nodeOf? path = none → Meets y s post fault) :
    Meets (do
      match ← Conversion.bound? path with
      | some t => return t
      | none => y) s post fault := by
  refine andThen (bound? ?_)
  cases hpath : s.nodeOf? path with
  | some t => exact pure (hold t hpath)
  | none => exact hnew hpath

/-- A new binding of a path; one that it has already must be the same. -/
theorem bind {path : Reference} {t : NodeId} {post : Unit → Progress σ → Prop}
    (hnew : s.nodeOf? path = none → post () { s with bound := (path, t) :: s.bound })
    (hold : ∀ other, s.nodeOf? path = some other → other = t ∧ post () s) :
    Meets (Conversion.bind path t) s post fault := by
  refine andThen (bound? ?_)
  cases hpath : s.nodeOf? path with
  | none => exact hnew hpath
  | some other =>
    obtain ⟨heq, h⟩ := hold other hpath
    simp only [heq, if_true]
    exact pure h

/-- Other references are followed for a while. -/
theorem onChain {enter : List Reference → List Reference}
    {leave : List Reference → List Reference → List Reference}
    (h : Meets x { s with chain := enter s.chain }
      (fun a s' => post a { s' with chain := leave s.chain s'.chain })
      (fun e s' => fault e { s' with chain := leave s.chain s'.chain })) :
    Meets (Conversion.onChain enter leave x) s post fault := by
  unfold Meets at h ⊢
  unfold Conversion.onChain
  cases hx : x { s with chain := enter s.chain } with
  | ok a s' =>
    rw [hx] at h
    exact h
  | error e s' =>
    rw [hx] at h
    exact h

/-- Those from before are followed again afterwards. -/
theorem withChain {chain : List Reference}
    (h : Meets x { s with chain := chain } (fun a s' => post a { s' with chain := s.chain })
      (fun e s' => fault e { s' with chain := s.chain })) :
    Meets (Conversion.withChain chain x) s post fault :=
  onChain h

/-- One more reference is followed for a while. -/
theorem whileFollowing {path : Reference}
    (h : Meets x { s with chain := s.chain ++ [path] }
      (fun a s' => post a { s' with chain := s'.chain.dropLast })
      (fun e s' => fault e { s' with chain := s'.chain.dropLast })) :
    Meets (Conversion.whileFollowing path x) s post fault :=
  onChain h

/-- A document of any source, which may change when it is asked. -/
theorem fetchFrom [DocumentSource σ] {address : String} {post : Json → Progress σ → Prop}
    (hfound : ∀ document, (DocumentSource.fetch s.documents address).1 = .ok document →
      post document { s with documents := (DocumentSource.fetch s.documents address).2 })
    (hmissing : ∀ e, (DocumentSource.fetch s.documents address).1 = .error e →
      fault e { s with documents := (DocumentSource.fetch s.documents address).2 }) :
    Meets (Conversion.fetch address) s post fault :=
  andThen (get (ofResult hfound hmissing))

/-- A document of a store, which stays as it is. -/
theorem fetch {s : Progress MemoryStore} {address : String}
    {post : Json → Progress MemoryStore → Prop} {fault : Failure → Progress MemoryStore → Prop}
    (hfound : ∀ document, s.documents.documents.find? address = some document → post document s)
    (hmissing : s.documents.documents.find? address = none →
      fault (.documentNotFound address) s) :
    Meets (Conversion.fetch address) s post fault := by
  refine fetchFrom (fun document hdocument => ?_) fun e he => ?_
  · exact hfound document (MemoryStore.fetch_eq_ok_iff.1 hdocument)
  · obtain ⟨hfind, rfl⟩ := MemoryStore.fetch_eq_error he
    exact hmissing hfind

/-- What is done with a document of a corpus, be it the root document or one that is fetched. -/
theorem document {c : Corpus} {s : Progress MemoryStore} (hs : s.documents = c.store)
    {address : String} {f : Json → Conversion MemoryStore α}
    {post : α → Progress MemoryStore → Prop} {fault : Failure → Progress MemoryStore → Prop}
    (hfound : ∀ document, c.document? address = some document → Meets (f document) s post fault)
    (hmissing : c.document? address = none → fault (.documentNotFound address) s) :
    Meets (if address = c.rootAddress then Pure.pure c.root >>= f
      else Conversion.fetch address >>= f) s post fault := by
  split
  · next hroot => exact andThen (pure (hfound c.root (if_pos hroot)))
  · next hroot =>
    have hdocument : c.document? address = s.documents.documents.find? address := by
      rw [hs]
      exact if_neg hroot
    refine andThen (fetch (fun document hfetch => ?_) fun hfetch => ?_)
    · exact hfound document (hdocument.trans hfetch)
    · exact hmissing (hdocument.trans hfetch)

end Meets

/-! ## Deciding which outcome there is -/

/-- Whether the conversion gives a result. -/
def succeeds (x : Conversion σ α) (s : Progress σ) : Bool :=
  match x s with
  | .ok _ _ => true
  | .error _ _ => false

theorem exists_eq_ok {x : Conversion σ α} {s : Progress σ} (h : succeeds x s = true) :
    ∃ a s', x s = .ok a s' := by
  unfold succeeds at h
  cases hx : x s with
  | ok a s' => exact ⟨a, s', rfl⟩
  | error e s' => rw [hx] at h; cases h

theorem exists_eq_error {x : Conversion σ α} {s : Progress σ} (h : succeeds x s = false) :
    ∃ e s', x s = .error e s' := by
  unfold succeeds at h
  cases hx : x s with
  | ok a s' => rw [hx] at h; cases h
  | error e s' => exact ⟨e, s', rfl⟩

end Conversion

end ShapeGraph
