import ShapeGraph.Proofs.Descriptions
import ShapeGraph.Proofs.Outcomes

/-!
# What a conversion keeps

While a schema is being converted, its path already stands for a node whose members are not set yet,
and the schemas inside it, which may lead back to it, are converted in the meantime.  At each moment
every path that stands for a node is either still pending or stands for what its schema calls for.

## Main definitions

* `Progress.Sound` — the invariant: every bound path is pending or described.
* `Progress.Extends`, `Progress.Advances` — what a conversion leaves unchanged.
* `Corpus.Trail` — the references that are being followed lead to the place at hand.
* `SoundConverter` — a conversion of inner schemas that keeps the invariant and blames what it meets.

## Main results

* `Progress.Sound.intern`, `Progress.Sound.declare`, `Progress.Advances.fill`, … — one rule for each
  operation on the progress.

## Design

A node that waits for members belongs to the function that has made it.  All other functions keep its
shape, so that it still waits for members when its own function sets them: this is why `Extends`
keeps all shapes and not only those that do not wait for members.  The keys of the types of one schema
likewise belong to the conversion of that schema; `own` lists the schemas whose keys may be added.
-/

set_option autoImplicit false

namespace ShapeGraph

open Conversion

namespace Progress

variable {σ : Type} {s s' s'' : Progress σ}

/-! ## What a conversion leaves unchanged -/

/-- All nodes keep their shapes and all paths their nodes.  Schemas other than those in `own` whose
paths stand for nodes already get no further keys for their types.  The references that are being
followed and the top-level types are the same as before. -/
structure Extends (own : List Reference) (s s' : Progress σ) : Prop where
  keeps : s.graph.Keeps s'.graph
  bound : ∀ path t, s.nodeOf? path = some t → s'.nodeOf? path = some t
  fresh : ∀ path e, e.isAddressable = false → path ∉ own → (∃ t, s.nodeOf? path = some t) →
    s.nodeOf? (path.push e) = none → s'.nodeOf? (path.push e) = none
  chain_eq : s'.chain = s.chain
  topLevels_eq : s'.graph.topLevels = s.graph.topLevels

variable {own : List Reference}

theorem Extends.refl (own : List Reference) (s : Progress σ) : s.Extends own s :=
  ⟨TypeGraph.Keeps.refl _, fun _ _ h => h, fun _ _ _ _ _ h => h, rfl, rfl⟩

theorem Extends.trans (h : s.Extends own s') (h' : s'.Extends own s'') : s.Extends own s'' where
  keeps := h.keeps.trans h'.keeps
  bound path t ht := h'.bound path t (h.bound path t ht)
  fresh path e he hpath hbound hnone :=
    h'.fresh path e he hpath (hbound.imp fun t ht => h.bound path t ht)
      (h.fresh path e he hpath hbound hnone)
  chain_eq := h'.chain_eq.trans h.chain_eq
  topLevels_eq := h'.topLevels_eq.trans h.topLevels_eq

/-- More schemas may be allowed to get keys for their types. -/
theorem Extends.weaken (h : s.Extends [] s') : s.Extends own s' :=
  { h with fresh := fun path e he _ hbound hnone => h.fresh path e he List.not_mem_nil hbound hnone }

theorem Extends.retains (h : s.Extends own s') : s.Retains s' := ⟨h.keeps.retains, h.bound⟩

/-- A schema that stands for no node yet may get keys for its types. -/
theorem Extends.forget {path : Reference} (hpath : s.nodeOf? path = none)
    (h : s.Extends [path] s') : s.Extends [] s' := by
  refine { h with fresh := fun other e he _ hbound hnone => ?_ }
  refine h.fresh other e he ?_ hbound hnone
  rw [List.mem_singleton]
  rintro rfl
  obtain ⟨t, ht⟩ := hbound
  rw [hpath] at ht
  cases ht

/-- A graph in which all nodes keep their shapes. -/
theorem Extends.setGraph (s : Progress σ) {g : TypeGraph} (hg : s.graph.Keeps g)
    (htop : g.topLevels = s.graph.topLevels) : s.Extends own { s with graph := g } :=
  ⟨hg, fun _ _ h => h, fun _ _ _ _ _ h => h, rfl, htop⟩

/-- Members of a node that is newer than `s`. -/
theorem Extends.replaceMembers (h : s.Extends own s') {t : NodeId} (ht : s.graph.shape? t = none)
    (members : SortedSet NodeId) :
    s.Extends own { s' with graph := s'.graph.replaceMembers t members } := by
  refine { h with keeps := fun u shape hu => ?_ }
  dsimp only
  rw [TypeGraph.shape?_replaceMembers, if_neg, h.keeps u shape hu]
  rintro rfl
  rw [ht] at hu
  cases hu

/-- A binding of a path that leads somewhere in the text. -/
theorem Extends.bind {path : Reference} (haddressable : path.IsAddressable)
    (hpath : s.nodeOf? path = none) (t : NodeId) :
    s.Extends own { s with bound := (path, t) :: s.bound } := by
  refine ⟨TypeGraph.Keeps.refl _, fun _ _ h => bound_bind hpath t h, ?_, rfl, rfl⟩
  intro other e he _ _ hnone
  rw [nodeOf?_bind, if_neg, hnone]
  rintro rfl
  rw [Reference.isAddressable_push, he] at haddressable
  cases haddressable

/-- A binding of a key for a type. -/
theorem Extends.bindType {path : Reference} {e : PathElement} (hpath : path ∈ own)
    (hnone : s.nodeOf? (path.push e) = none) (t : NodeId) :
    s.Extends own { s with bound := (path.push e, t) :: s.bound } := by
  refine ⟨TypeGraph.Keeps.refl _, fun _ _ h => bound_bind hnone t h, ?_, rfl, rfl⟩
  intro other f _ hother _ hfree
  rw [nodeOf?_bind, if_neg, hfree]
  intro heq
  rw [(Reference.push_injective heq).1] at hother
  exact hother hpath

end Progress

/-! ## The invariant -/

/-- Every path that stands for a node is pending or stands for what its schema calls for.  Pending
paths stand for nodes, and the keys of types only occur next to the path of their schema. -/
structure Progress.Sound (c : Corpus) (pending : List Reference) (s : Progress MemoryStore) :
    Prop where
  documents_eq : s.documents = c.store
  indexed : s.graph.Indexed
  described : ∀ path t, path.IsAddressable → s.nodeOf? path = some t → ∃ place,
    c.place? path = some place ∧ c.Grounded place ∧ (path ∈ pending ∨ c.Describes s place t)
  pending_bound : ∀ path ∈ pending, ∃ t, s.nodeOf? path = some t
  parents : ∀ path e, e.isAddressable = false → (∃ t, s.nodeOf? (path.push e) = some t) →
    ∃ t, s.nodeOf? path = some t

namespace Progress.Sound

variable {c : Corpus} {pending own : List Reference} {s : Progress MemoryStore}

/-- The start of a conversion. -/
theorem start (c : Corpus) : Sound c [] (Progress.start c.store) :=
  ⟨rfl, TypeGraph.Indexed.empty, by simp [nodeOf?, Progress.start], by simp,
    by simp [nodeOf?, Progress.start]⟩

/-- What is described stays described in a graph that loses nothing. -/
theorem setGraph (h : s.Sound c pending) {g : TypeGraph} (hg : s.graph.Retains g)
    (hindexed : g.Indexed) : Sound c pending { s with graph := g } := by
  have hretains : s.Retains { s with graph := g } := ⟨hg, fun _ _ hn => hn⟩
  refine ⟨h.documents_eq, hindexed, fun path t haddressable ht => ?_, h.pending_bound, h.parents⟩
  obtain ⟨place, hplace, hgrounded, hpath⟩ := h.described path t haddressable ht
  exact ⟨place, hplace, hgrounded, hpath.imp_right (·.mono hretains)⟩

theorem setChain (h : s.Sound c pending) (chain : List Reference) :
    Sound c pending { s with chain := chain } := by
  have hretains : s.Retains { s with chain := chain } := ⟨fun _ _ _ hn => hn, fun _ _ hn => hn⟩
  refine ⟨h.documents_eq, h.indexed, fun path t haddressable ht => ?_, h.pending_bound, h.parents⟩
  obtain ⟨place, hplace, hgrounded, hpath⟩ := h.described path t haddressable ht
  exact ⟨place, hplace, hgrounded, hpath.imp_right (·.mono hretains)⟩

/-- A new binding keeps the invariant if it is right about the path itself: the path is pending or
described, or it is the key of a type whose schema stands for a node. -/
theorem bindPath (h : s.Sound c pending) {path : Reference} {t : NodeId} {pending' : List Reference}
    (hpath : s.nodeOf? path = none) (hsub : ∀ other ∈ pending, other ∈ pending')
    (hnew : ∀ other ∈ pending', other = path ∨ other ∈ pending)
    (hown : path.IsAddressable → ∃ place, c.place? path = some place ∧ c.Grounded place ∧
      (path ∈ pending' ∨ c.Describes s place t))
    (hparent : ∀ other e, e.isAddressable = false → path = other.push e →
      ∃ n, s.nodeOf? other = some n) :
    Sound c pending' { s with bound := (path, t) :: s.bound } := by
  have hretains : s.Retains { s with bound := (path, t) :: s.bound } :=
    ⟨fun _ _ _ hn => hn, fun _ _ hn => bound_bind hpath t hn⟩
  refine ⟨h.documents_eq, h.indexed, fun other n haddressable hn => ?_, fun other hother => ?_,
    fun other e he hbound => ?_⟩
  · rw [nodeOf?_bind] at hn
    split at hn
    · next heq =>
      subst heq
      cases hn
      obtain ⟨place, hplace, hgrounded, hcase⟩ := hown haddressable
      exact ⟨place, hplace, hgrounded, hcase.imp_right (·.mono hretains)⟩
    · obtain ⟨place, hplace, hgrounded, hcase⟩ := h.described other n haddressable hn
      exact ⟨place, hplace, hgrounded, hcase.imp (hsub other) (·.mono hretains)⟩
  · rcases hnew other hother with rfl | hother
    · exact ⟨t, by rw [nodeOf?_bind, if_pos rfl]⟩
    · exact (h.pending_bound other hother).imp fun n hn => hretains.bound _ _ hn
  · obtain ⟨n, hn⟩ := hbound
    rw [nodeOf?_bind] at hn
    split at hn
    · next heq => exact (hparent other e he heq.symm).imp fun m hm => hretains.bound _ _ hm
    · exact (h.parents other e he ⟨n, hn⟩).imp fun m hm => hretains.bound _ _ hm

/-- A path whose schema has been described is no longer pending. -/
theorem settle {path : Reference} (h : s.Sound c (path :: pending)) {place : Place} {t : NodeId}
    (hplace : c.place? path = some place) (ht : s.nodeOf? path = some t)
    (hdescribed : c.Describes s place t) : s.Sound c pending := by
  refine ⟨h.documents_eq, h.indexed, fun other n haddressable hn => ?_,
    fun other hother => h.pending_bound other (List.mem_cons_of_mem _ hother), h.parents⟩
  obtain ⟨found, hfound, hgrounded, hcase⟩ := h.described other n haddressable hn
  refine ⟨found, hfound, hgrounded, ?_⟩
  rcases hcase with hmem | hdescribes
  · rcases List.mem_cons.1 hmem with rfl | hmem
    · rw [hplace] at hfound
      rw [ht] at hn
      cases hfound
      cases hn
      exact Or.inr hdescribed
    · exact Or.inl hmem
  · exact Or.inr hdescribes

end Progress.Sound

/-- One progress follows another: nothing has been lost, and the invariant holds. -/
structure Progress.Advances (c : Corpus) (pending own : List Reference)
    (s s' : Progress MemoryStore) : Prop where
  sound : s'.Sound c pending
  grows : s.Extends own s'

namespace Progress

variable {c : Corpus} {pending own : List Reference} {s s' s'' : Progress MemoryStore}

theorem Sound.advances (h : s.Sound c pending) (own : List Reference) :
    s.Advances c pending own s :=
  ⟨h, Extends.refl own s⟩

theorem Advances.trans (h : s.Advances c pending own s') (h' : s'.Advances c pending own s'') :
    s.Advances c pending own s'' :=
  ⟨h'.sound, h.grows.trans h'.grows⟩

theorem Advances.weaken (h : s.Advances c pending [] s') : s.Advances c pending own s' :=
  ⟨h.sound, h.grows.weaken⟩

theorem Advances.retains (h : s.Advances c pending own s') : s.Retains s' := h.grows.retains

/-! ## Rules for operations -/

section Rules

variable {fault : Failure → Progress MemoryStore → Prop}

/-- Asking for a shape gives a node that has it. -/
theorem Sound.intern (h : s.Sound c pending) (own : List Reference) {shape : Shape}
    (hshape : shape.isCombination = false) {post : NodeId → Progress MemoryStore → Prop}
    (hpost : ∀ t s', s.Advances c pending own s' → s'.graph.shape? t = some shape →
      (∀ path, s'.nodeOf? path = s.nodeOf? path) → post t s') :
    Meets (onGraph (·.intern shape)) s post fault := by
  have hspec := TypeGraph.intern_spec h.indexed hshape
  have hsound := h.setGraph hspec.keeps.retains hspec.indexed
  exact Meets.onGraph (hpost _ _ ⟨hsound, Extends.setGraph s hspec.keeps hspec.topLevels_eq⟩
    hspec.has_shape fun _ => rfl)

/-- A new union or intersection waits for its members. -/
theorem Sound.declare (h : s.Sound c pending) (own : List Reference) (operation : Operation)
    {post : NodeId → Progress MemoryStore → Prop}
    (hpost : ∀ t s', s.Advances c pending own s' → s.graph.shape? t = none →
      s'.graph.shape? t = some (.combination operation none) →
        (∀ path, s'.nodeOf? path = s.nodeOf? path) → post t s') :
    Meets (Conversion.declare operation) s post fault := by
  have hspec := TypeGraph.declare_spec h.indexed operation
  have hsound := h.setGraph hspec.keeps.retains hspec.indexed
  exact Meets.onGraph (hpost _ _ ⟨hsound, Extends.setGraph s hspec.keeps hspec.topLevels_eq⟩
    hspec.is_new hspec.has_shape fun _ => rfl)

/-- Setting the members of a node that waits for them and is newer than `base`. -/
theorem Advances.fill {base : Progress MemoryStore} (h : base.Advances c pending own s) {t : NodeId}
    {operation : Operation} (hnew : base.graph.shape? t = none)
    (ht : s.graph.shape? t = some (.combination operation none)) (members : SortedSet NodeId)
    {post : Unit → Progress MemoryStore → Prop}
    (hpost : ∀ s', base.Advances c pending own s' → s.Retains s' →
      s'.graph.shape? t = some (.combination operation (some members)) →
        (∀ path, s'.nodeOf? path = s.nodeOf? path) → post () s') :
    Meets (setMembers t members) s post fault := by
  have hretains := TypeGraph.retains_replaceMembers ht members
  have hsound := h.sound.setGraph hretains (h.sound.indexed.of_retains hretains rfl)
  exact Meets.setMembers (by rw [ht]; rfl)
    (hpost _ ⟨hsound, h.grows.replaceMembers hnew members⟩ ⟨hretains, fun _ _ hn => hn⟩
      (TypeGraph.shape?_replaceMembers_self ht members) fun _ => rfl)

/-- Attributes change nothing that is described. -/
theorem Sound.addAttributes (h : s.Sound c pending) (own : List Reference) (t : NodeId)
    (attributes : Attributes) {post : Unit → Progress MemoryStore → Prop}
    (hpost : ∀ s', s.Advances c pending own s' →
      (∀ n, s'.graph.shape? n = s.graph.shape? n) →
        (∀ path, s'.nodeOf? path = s.nodeOf? path) → post () s') :
    Meets (Conversion.addAttributes t attributes) s post fault := by
  have hkeeps : s.graph.Keeps (s.graph.addAttributes t attributes) := by
    intro n shape hn
    rw [TypeGraph.shape?_addAttributes, hn]
  have hindexed := h.indexed.of_retains hkeeps.retains
    (TypeGraph.interned_addAttributes s.graph t attributes)
  have hgrows : s.Extends own { s with graph := s.graph.addAttributes t attributes } :=
    Extends.setGraph s hkeeps (TypeGraph.topLevels_addAttributes s.graph t attributes)
  exact Meets.addAttributes (hpost _ ⟨h.setGraph hkeeps.retains hindexed, hgrows⟩
    (TypeGraph.shape?_addAttributes s.graph t · attributes) fun _ => rfl)

/-- The key of a type of a schema that stands for a node. -/
theorem Sound.bindType (h : s.Sound c pending) {path : Reference} {e : PathElement}
    (hown : path ∈ own) (he : e.isAddressable = false) (hfree : s.nodeOf? (path.push e) = none)
    (hpath : ∃ n, s.nodeOf? path = some n) (t : NodeId) {post : Unit → Progress MemoryStore → Prop}
    (hpost : ∀ s', s.Advances c pending own s' → s'.nodeOf? (path.push e) = some t →
      s'.graph = s.graph → post () s') :
    Meets (Conversion.bind (path.push e) t) s post fault := by
  refine Meets.bind (fun _ => hpost _ ⟨?_, Extends.bindType hown hfree t⟩ ?_ rfl) ?_
  · refine h.bindPath hfree (fun _ hother => hother) (fun _ hother => Or.inr hother) ?_ ?_
    · intro haddressable
      rw [Reference.isAddressable_push, he] at haddressable
      cases haddressable
    · intro other f _ heq
      rwa [← (Reference.push_injective heq).1]
  · rw [nodeOf?_bind, if_pos rfl]
  · intro other hother
    rw [hfree] at hother
    cases hother

/-- A path that leads somewhere in the text is no key of a type. -/
theorem ne_push_of_isAddressable {path other : Reference} (hpath : path.IsAddressable)
    {e : PathElement} (he : e.isAddressable = false) : path ≠ other.push e := by
  rintro rfl
  rw [Reference.isAddressable_push, he] at hpath
  cases hpath

/-- The path of a schema whose members are not set yet. -/
theorem Sound.bindPending (h : s.Sound c pending) (own : List Reference) {place : Place}
    (hplace : c.Located place) (hgrounded : c.Grounded place) (haddressable : place.path.IsAddressable)
    (hfree : s.nodeOf? place.path = none) (t : NodeId) {post : Unit → Progress MemoryStore → Prop}
    (hpost : ∀ s', s'.Sound c (place.path :: pending) → s.Extends own s' →
      s'.nodeOf? place.path = some t → s'.graph = s.graph →
        (∀ e, e.isAddressable = false →
          s'.nodeOf? (place.path.push e) = s.nodeOf? (place.path.push e)) → post () s') :
    Meets (Conversion.bind place.path t) s post fault := by
  refine Meets.bind (fun _ => hpost _ ?_ (Extends.bind haddressable hfree t) ?_ rfl ?_) ?_
  · refine h.bindPath hfree (fun _ hother => List.mem_cons_of_mem _ hother)
      (fun _ hother => List.mem_cons.1 hother) (fun _ => ?_) fun other e he heq => ?_
    · exact ⟨place, Corpus.located_iff.1 hplace, hgrounded, Or.inl List.mem_cons_self⟩
    · exact absurd heq (ne_push_of_isAddressable haddressable he)
  · rw [nodeOf?_bind, if_pos rfl]
  · intro e he
    rw [nodeOf?_bind, if_neg (ne_push_of_isAddressable haddressable he).symm]
  · intro other hother
    rw [hfree] at hother
    cases hother

/-- The path of a schema whose node is described.  If it stands for a node already, it must be the
same. -/
theorem Sound.bindDescribed (h : s.Sound c pending) (own : List Reference) {place : Place}
    (hplace : c.Located place) (hgrounded : c.Grounded place) (haddressable : place.path.IsAddressable) {t : NodeId}
    (hdescribes : c.Describes s place t)
    (hunique : ∀ other, s.nodeOf? place.path = some other → other = t)
    {post : Unit → Progress MemoryStore → Prop}
    (hpost : ∀ s', s.Advances c pending own s' → s'.nodeOf? place.path = some t → post () s') :
    Meets (Conversion.bind place.path t) s post fault := by
  refine Meets.bind (fun hfree => hpost _ ⟨?_, Extends.bind haddressable hfree t⟩ ?_) ?_
  · refine h.bindPath hfree (fun _ hother => hother) (fun _ hother => Or.inr hother)
      (fun _ => ?_) fun other e he heq => ?_
    · exact ⟨place, Corpus.located_iff.1 hplace, hgrounded, Or.inr hdescribes⟩
    · exact absurd heq (ne_push_of_isAddressable haddressable he)
  · rw [nodeOf?_bind, if_pos rfl]
  · intro other hother
    obtain rfl := hunique other hother
    exact ⟨rfl, hpost s (h.advances own) hother⟩

end Rules

end Progress

/-! ## Conversions of inner schemas -/

/-- Every reference that is being followed leads, over one or more others, to the place at hand. -/
def Corpus.Trail (c : Corpus) (chain : List Reference) (place : Place) : Prop :=
  ∀ path ∈ chain, ∃ start, c.place? path = some start ∧ Relation.TransGen c.Leads start place

/-- A place at which a conversion may be asked for: it is located, or its path stands for a node
already. -/
structure Corpus.Ready (c : Corpus) (s : Progress MemoryStore) (place : Place) : Prop where
  addressable : place.path.IsAddressable
  trail : c.Trail s.chain place
  located : (∃ t, s.nodeOf? place.path = some t) ∨ c.Located place

/-- The conversion keeps the invariant, gives the node that the path then stands for, and fails only
for reasons that it meets on its way. -/
def SoundConverter (c : Corpus) (recur : Converter MemoryStore) : Prop :=
  ∀ (pending : List Reference) (place : Place) (hints : Names) (s : Progress MemoryStore),
    s.Sound c pending → c.Ready s place →
      Meets (recur place hints) s
        (fun t s' => s.Advances c pending [] s' ∧ s'.nodeOf? place.path = some t)
        (fun e _ => c.Blames place.path e)

end ShapeGraph
