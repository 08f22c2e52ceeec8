import Mathlib.Logic.Function.Basic
import ShapeGraph.Proofs.Keys
import ShapeGraph.Proofs.Yields

/-!
# Keys of the nodes of a graph

While documents are converted, every node can be given its key as soon as it is made: it is known then
what the node is made for, or which keys its parts have.  No two nodes get the same key, and a path
stands for the node that has the key of the schema there.

That a union or intersection is new rests on the paths that are bound.  What is made for parts of a
schema is made in the conversion of that schema, which begins only if the path of the schema is not
bound yet and binds it at once.

## Main definitions

* `TypeGraph.Adds` — a graph has one more node than another.
* `Corpus.StandsFor` — a node has the key of the schema at a path.
* `Progress.Labels` — keys for all nodes of the graph.
* `Progress.Relabels` — further nodes have got keys, among them unions and intersections for certain
  parts only.

## Main results

* `Progress.Labels.extend` — a new node gets a new key.
* `Progress.Relabels.untaken` — nodes for other parts of a schema leave the key of this one free.
* `Progress.Labels.intern`, `Progress.Labels.declare`, `Progress.Relabels.fill`, … — one rule for each
  operation.
-/

set_option autoImplicit false

namespace ShapeGraph

/-! ## One more node -/

namespace TypeGraph

/-- The second graph has one more node than the first. -/
structure Adds (g : TypeGraph) (t : NodeId) (shape : Shape) (h : TypeGraph) : Prop where
  indexed : h.Indexed
  consed : h.Consed
  keeps : g.Keeps h
  is_new : g.shape? t = none
  has_shape : h.shape? t = some shape
  only_new : ∀ u other, h.shape? u = some other → u = t ∨ g.shape? u = some other

variable {g h : TypeGraph} {t : NodeId}

/-- Where nothing is lost, whatever is not new has been there before. -/
theorem Keeps.eq_or_shape? (hgh : g.Keeps h)
    (hnew : ∀ u other, g.nodes.length ≤ u → h.shape? u = some other → u = t) (u : NodeId)
    (other : Shape) (hu : h.shape? u = some other) : u = t ∨ g.shape? u = some other := by
  rcases Nat.lt_or_ge u g.nodes.length with hold | hle
  · obtain ⟨same, hsame⟩ := exists_shape? hold
    rw [hgh u same hsame] at hu
    exact Or.inr (hu ▸ hsame)
  · exact Or.inl (hnew u other hle hu)

theorem adds_declare (hindexed : g.Indexed) (hconsed : g.Consed) (operation : Operation) :
    g.Adds g.nodes.length (.combination operation none) (g.declare operation).2 := by
  have hspec := declare_spec hindexed operation
  exact ⟨hspec.indexed, hconsed.declare operation, hspec.keeps, hspec.is_new, hspec.has_shape,
    hspec.keeps.eq_or_shape? fun _ _ => eq_declare_of_new⟩

/-- A shape that is not indexed yet gets a node. -/
theorem adds_intern (hindexed : g.Indexed) (hconsed : g.Consed) {shape : Shape}
    (hshape : shape.isCombination = false) (hfind : g.interned.lookup shape = none) :
    (g.intern shape).1 = g.nodes.length ∧
      g.Adds g.nodes.length shape (g.intern shape).2 := by
  have hspec := intern_spec hindexed hshape
  have hself : (g.intern shape).1 = g.nodes.length := by
    unfold intern
    rw [hfind]
    rfl
  have hnew : ∀ u other, g.nodes.length ≤ u → (g.intern shape).2.shape? u = some other →
      u = g.nodes.length := fun _ _ hle hu => (eq_intern_of_new hle hu).trans hself
  exact ⟨hself, hspec.indexed, hconsed.intern shape, hspec.keeps, shape?_length g,
    hself ▸ hspec.has_shape, hspec.keeps.eq_or_shape? hnew⟩

end TypeGraph

/-! ## Parts of schemas -/

/-- No node has been made for a part of the schema at a path. -/
def Untaken (key : NodeId → Option Key) (base : Reference) (part : Part) : Prop :=
  ∀ t, key t ≠ some (.part base part)

section Update

variable {key : NodeId → Option Key} {t u : NodeId} {k other : Key}

/-- Besides those that there are, a further node has a key. -/
theorem eq_or_of_update (hu : Function.update key t (some k) u = some other) :
    u = t ∧ other = k ∨ key u = some other := by
  by_cases hut : u = t
  · rw [hut, Function.update_self] at hu
    exact Or.inl ⟨hut, (Option.some.inj hu).symm⟩
  · rw [Function.update_of_ne hut] at hu
    exact Or.inr hu

/-- A key for a node that has none changes no other key. -/
theorem update_of_some (ht : key t = none) (k : Key) (hu : key u = some other) :
    Function.update key t (some k) u = some other := by
  rw [Function.update_of_ne, hu]
  rintro rfl
  rw [ht] at hu
  cases hu

/-- If no node has the new key, nodes still have keys of their own. -/
theorem injective_update (h : ∀ u v other, key u = some other → key v = some other → u = v)
    (huntaken : ∀ u, key u ≠ some k) (t u v : NodeId) (other : Key)
    (hu : Function.update key t (some k) u = some other)
    (hv : Function.update key t (some k) v = some other) : u = v := by
  rcases eq_or_of_update hu with ⟨hut, hk⟩ | hold <;>
    rcases eq_or_of_update hv with ⟨hvt, hk'⟩ | hold'
  · exact hut.trans hvt.symm
  · exact absurd (hk ▸ hold') (huntaken v)
  · exact absurd (hk' ▸ hold) (huntaken u)
  · exact h u v other hold hold'

/-- A node for one part of a schema leaves the keys of others free. -/
theorem Untaken.update {base : Reference} {part other : Part} (h : Untaken key base other)
    (hne : other ≠ part) (t : NodeId) :
    Untaken (Function.update key t (some (.part base part))) base other := by
  intro u hu
  rcases eq_or_of_update hu with ⟨-, heq⟩ | hold
  · cases heq
    exact hne rfl
  · exact h u hold

end Update

/-- Certain parts of the schema at a path. -/
def Owns (base : Reference) (parts : Part → Prop) (path : Reference) (part : Part) : Prop :=
  path = base ∧ parts part

/-- No part of any schema. -/
def OwnsNothing (_ : Reference) (_ : Part) : Prop := False

/-- The node has the key of the schema at the path. -/
def Corpus.StandsFor (c : Corpus) (key : NodeId → Option Key) (path : Reference) (t : NodeId) : Prop :=
  ∃ k, c.PathKey path k ∧ key t = some k

theorem Corpus.StandsFor.mono {c : Corpus} {key key' : NodeId → Option Key} {path : Reference}
    {t : NodeId} (h : c.StandsFor key path t) (hkey : ∀ t k, key t = some k → key' t = some k) :
    c.StandsFor key' path t :=
  h.imp fun k hk => ⟨hk.1, hkey t k hk.2⟩

namespace Progress

variable {c : Corpus} {key key' key'' : NodeId → Option Key} {s s' s'' : Progress MemoryStore}
  {own own' : Reference → Part → Prop} {base path : Reference} {part : Part} {t u : NodeId}
  {k : Key}

/-! ## Keys for the nodes of a graph -/

/-- Every node has a key of its own, and paths stand for the nodes that have the keys of the schemas
there.  What is made for a part of a schema is made once the path of the schema is bound. -/
structure Labels (c : Corpus) (key : NodeId → Option Key) (s : Progress MemoryStore) : Prop where
  documents_eq : s.documents = c.store
  indexed : s.graph.Indexed
  consed : s.graph.Consed
  suits : ∀ t shape, s.graph.shape? t = some shape → ∃ k, key t = some k ∧ c.Suits key shape k
  allocated : ∀ t k, key t = some k → ∃ shape, s.graph.shape? t = some shape
  injective : ∀ t u k, key t = some k → key u = some k → t = u
  named : ∀ path t, path.IsAddressable → s.nodeOf? path = some t → c.StandsFor key path t
  based : ∀ t base part, key t = some (.part base part) → ∃ u, s.nodeOf? base = some u

/-- Nothing has been lost, and further nodes have got keys.  Where they are made for parts of schemas,
the paths of these have not been bound before, or the parts are among certain ones. -/
structure Relabels (c : Corpus) (own : Reference → Part → Prop) (key : NodeId → Option Key)
    (s : Progress MemoryStore) (key' : NodeId → Option Key) (s' : Progress MemoryStore) :
    Prop where
  labels : s'.Labels c key'
  keeps : s.graph.Keeps s'.graph
  bound : ∀ path t, s.nodeOf? path = some t → s'.nodeOf? path = some t
  extends_key : ∀ t k, key t = some k → key' t = some k
  fresh : ∀ t base part, key' t = some (.part base part) →
    key t = some (.part base part) ∨ s.nodeOf? base = none ∨ own base part

theorem Labels.start (c : Corpus) : Labels c (fun _ => none) (Progress.start c.store) where
  documents_eq := rfl
  indexed := .empty
  consed := .empty
  suits := by simp [Progress.start, TypeGraph.empty, TypeGraph.shape?]
  allocated _ _ h := by cases h
  injective _ _ _ h := by cases h
  named := by simp [Progress.start, nodeOf?]
  based _ _ _ h := by cases h

/-- Nothing has been made for the parts of a schema whose path is not bound. -/
theorem Labels.untaken (h : s.Labels c key) (hfree : s.nodeOf? base = none) (part : Part) :
    Untaken key base part := by
  intro t ht
  obtain ⟨u, hu⟩ := h.based t base part ht
  rw [hfree] at hu
  cases hu

/-- A node that does not exist has no key. -/
theorem Labels.key_eq_none (h : s.Labels c key) (ht : s.graph.shape? t = none) : key t = none := by
  cases hk : key t with
  | none => rfl
  | some k =>
    obtain ⟨shape, hshape⟩ := h.allocated t k hk
    rw [ht] at hshape
    cases hshape

theorem Labels.relabels (h : s.Labels c key) (own : Reference → Part → Prop) :
    s.Relabels c own key key s :=
  ⟨h, .refl _, fun _ _ ht => ht, fun _ _ hk => hk, fun _ _ _ ht => Or.inl ht⟩

namespace Relabels

theorem trans (h : s.Relabels c own key key' s') (h' : s'.Relabels c own key' key'' s'') :
    s.Relabels c own key key'' s'' := by
  refine ⟨h'.labels, h.keeps.trans h'.keeps, fun path t ht => h'.bound path t (h.bound path t ht),
    fun t k hk => h'.extends_key t k (h.extends_key t k hk), fun t base part ht => ?_⟩
  rcases h'.fresh t base part ht with hold | hfree | hown
  · exact h.fresh t base part hold
  · refine Or.inr (Or.inl ?_)
    cases hbase : s.nodeOf? base with
    | none => rfl
    | some u =>
      rw [h.bound base u hbase] at hfree
      cases hfree
  · exact Or.inr (Or.inr hown)

theorem weaken (h : s.Relabels c own key key' s')
    (hown : ∀ base part, own base part → own' base part) : s.Relabels c own' key key' s' :=
  ⟨h.labels, h.keeps, h.bound, h.extends_key, fun t base part ht =>
    (h.fresh t base part ht).imp_right fun hfresh => hfresh.imp_right (hown base part)⟩

/-- What makes nothing for parts of schemas whose paths are bound may be counted as owning some. -/
theorem disowned (h : s.Relabels c OwnsNothing key key' s') : s.Relabels c own key key' s' :=
  h.weaken fun _ _ hown => hown.elim

/-- What is made for the parts of a schema whose path has not been bound need not be counted. -/
theorem forget {parts : Part → Prop} (h : s.Relabels c (Owns base parts) key key' s')
    (hfree : s.nodeOf? base = none) : s.Relabels c OwnsNothing key key' s' := by
  refine ⟨h.labels, h.keeps, h.bound, h.extends_key, fun t other part ht => ?_⟩
  rcases h.fresh t other part ht with hold | hnone | ⟨rfl, -⟩
  · exact Or.inl hold
  · exact Or.inr (Or.inl hnone)
  · exact Or.inr (Or.inl hfree)

/-- Nodes for other parts of a schema whose path is bound leave the key of this one free. -/
theorem untaken (h : s.Relabels c own key key' s') (hbase : s.nodeOf? base = some u)
    (hown : ¬ own base part) (hfree : Untaken key base part) : Untaken key' base part := by
  intro t ht
  rcases h.fresh t base part ht with hold | hnone | hmine
  · exact hfree t hold
  · rw [hbase] at hnone
    cases hnone
  · exact hown hmine

end Relabels

/-! ## New nodes -/

/-- A new node gets a new key.  If it is a union or intersection, this is the key of a part of a schema,
whose path is bound by then. -/
theorem Labels.extend (h : s.Labels c key) {shape : Shape} (hadds : s.graph.Adds t shape s'.graph)
    (hdocuments : s'.documents = s.documents) (hsuits : c.Suits key shape k)
    (huntaken : ∀ u, key u ≠ some k)
    (hbound : ∀ path u, s.nodeOf? path = some u → s'.nodeOf? path = some u)
    (hnamed : ∀ path u, path.IsAddressable → s'.nodeOf? path = some u →
      s.nodeOf? path = some u ∨ c.PathKey path k ∧ u = t)
    (hpart : ∀ base part, k = .part base part →
      (∃ u, s'.nodeOf? base = some u) ∧ (s.nodeOf? base = none ∨ own base part)) :
    s.Relabels c own key (Function.update key t (some k)) s' := by
  have hself : Function.update key t (some k) t = some k := Function.update_self ..
  have hextends : ∀ u other, key u = some other →
      Function.update key t (some k) u = some other :=
    fun u other hu => update_of_some (h.key_eq_none hadds.is_new) k hu
  refine ⟨⟨hdocuments.trans h.documents_eq, hadds.indexed, hadds.consed, ?_, ?_,
    injective_update h.injective huntaken t, ?_, ?_⟩, hadds.keeps, hbound, hextends, ?_⟩
  · intro u other hu
    rcases hadds.only_new u other hu with rfl | hold
    · rw [hadds.has_shape] at hu
      cases hu
      exact ⟨k, hself, hsuits.mono hextends⟩
    · obtain ⟨k', hk', hsuits'⟩ := h.suits u other hold
      exact ⟨k', hextends u k' hk', hsuits'.mono hextends⟩
  · intro u other hu
    rcases eq_or_of_update hu with ⟨rfl, -⟩ | hold
    · exact ⟨shape, hadds.has_shape⟩
    · exact (h.allocated u other hold).imp fun shape hshape => hadds.keeps u shape hshape
  · intro path u haddressable hu
    rcases hnamed path u haddressable hu with hold | ⟨hkey, rfl⟩
    · exact (h.named path u haddressable hold).mono hextends
    · exact ⟨k, hkey, hself⟩
  · intro u base part hu
    rcases eq_or_of_update hu with ⟨-, hk⟩ | hold
    · exact (hpart base part hk.symm).1
    · exact (h.based u base part hold).imp fun v hv => hbound base v hv
  · intro u base part hu
    rcases eq_or_of_update hu with ⟨-, hk⟩ | hold
    · exact Or.inr (hpart base part hk.symm).2
    · exact Or.inl hold

/-- The node of a shape has the key that the shape has.

**Proof sketch.** If the shape is indexed, its node has a key that it suits, and there is only one such.
Otherwise the key is new: a node that has it already has the same shape, and would be indexed. -/
theorem Labels.intern (h : s.Labels c key) {shape : Shape} (hshape : shape.isCombination = false)
    (hsuits : c.Suits key shape k) (own : Reference → Part → Prop) :
    ∃ key', s.Relabels c own key key' { s with graph := (s.graph.intern shape).2 } ∧
      key' (s.graph.intern shape).1 = some k := by
  cases hfind : s.graph.interned.lookup shape with
  | some t =>
    have hintern : s.graph.intern shape = (t, s.graph) := by
      unfold TypeGraph.intern
      rw [hfind]
    obtain ⟨-, ht⟩ := h.indexed shape t hfind
    obtain ⟨k', hk', hsuits'⟩ := h.suits t shape ht
    obtain rfl := hsuits.key_unique hshape hsuits'
    rw [hintern]
    exact ⟨key, h.relabels own, hk'⟩
  | none =>
    obtain ⟨hself, hadds⟩ := TypeGraph.adds_intern h.indexed h.consed hshape hfind
    have huntaken : ∀ u, key u ≠ some k := by
      intro u hu
      obtain ⟨other, hother⟩ := h.allocated u k hu
      obtain ⟨k', hk', hsuits'⟩ := h.suits u other hother
      rw [hu] at hk'
      cases hk'
      obtain rfl := hsuits.shape_unique h.injective hshape hsuits'
      rw [h.consed u other hshape hother] at hfind
      cases hfind
    refine ⟨_, h.extend hadds rfl hsuits huntaken (fun _ _ hu => hu) (fun _ _ _ hu => Or.inl hu) ?_, ?_⟩
    · rintro base part rfl
      cases hsuits <;> cases hshape
    · rw [hself]
      exact Function.update_self ..

/-- A new union or intersection gets the key of a part of a schema that no node has been made for. -/
theorem Labels.declare (h : s.Labels c key) (hbase : s.nodeOf? base = some u)
    (huntaken : Untaken key base part) (hown : own base part) :
    s.Relabels c own key (Function.update key s.graph.nodes.length (some (.part base part)))
      { s with graph := (s.graph.declare part.operation).2 } := by
  refine h.extend (TypeGraph.adds_declare h.indexed h.consed part.operation) rfl (.unset base part)
    huntaken (fun _ _ hv => hv) (fun _ _ _ hv => Or.inl hv) ?_
  rintro _ _ ⟨⟩
  exact ⟨⟨u, hbase⟩, Or.inr hown⟩

/-- A new union or intersection gets the key of a part of the schema at a path that is bound to it in
the same moment. -/
theorem Labels.open (h : s.Labels c key) (hfree : s.nodeOf? base = none)
    (hkey : c.PathKey base (.part base part)) (own : Reference → Part → Prop) :
    s.Relabels c own key (Function.update key s.graph.nodes.length (some (.part base part)))
      { s with
        graph := (s.graph.declare part.operation).2
        bound := (base, s.graph.nodes.length) :: s.bound } := by
  have hnodeOf := fun path => nodeOf?_bind s base path s.graph.nodes.length
  refine h.extend (TypeGraph.adds_declare h.indexed h.consed part.operation) rfl (.unset base part)
    (h.untaken hfree part) (fun path v hv => bound_bind hfree _ hv) (fun path v _ hv => ?_) ?_
  · replace hv := (hnodeOf path).symm.trans hv
    split at hv
    · next heq =>
      cases hv
      exact Or.inr ⟨heq ▸ hkey, rfl⟩
    · exact Or.inl hv
  · rintro _ _ ⟨⟩
    exact ⟨⟨_, (hnodeOf base).trans (if_pos rfl)⟩, Or.inl hfree⟩

/-! ## Changes -/

namespace Relabels

/-- A union or intersection gets its members. -/
theorem fill (h : s.Relabels c own key key' s') (hnew : s.graph.shape? t = none)
    (ht : key' t = some (.part base part))
    (hwaits : s'.graph.shape? t = some (.combination part.operation none)) {place : Place}
    (hplace : c.place? base = some place) {members : SortedSet NodeId}
    (hmembers : Collects key' members (c.MemberKey place part)) :
    s.Relabels c own key key' { s' with graph := s'.graph.replaceMembers t members } := by
  have hretains := TypeGraph.retains_replaceMembers hwaits members
  have hself := TypeGraph.shape?_replaceMembers_self hwaits members
  have hothers : ∀ {u}, u ≠ t →
      (s'.graph.replaceMembers t members).shape? u = s'.graph.shape? u :=
    fun hne => TypeGraph.shape?_replaceMembers_of_ne s'.graph hne members
  refine ⟨⟨h.labels.documents_eq, h.labels.indexed.of_retains hretains rfl,
    h.labels.consed.replaceMembers t members, ?_, ?_, h.labels.injective, h.labels.named,
    h.labels.based⟩, ?_, h.bound, h.extends_key, h.fresh⟩
  · intro u shape hu
    by_cases hut : u = t
    · subst hut
      rw [hself] at hu
      cases hu
      exact ⟨_, ht, .set hplace hmembers⟩
    · rw [hothers hut] at hu
      exact h.labels.suits u shape hu
  · intro u k hu
    by_cases hut : u = t
    · subst hut
      exact ⟨_, hself⟩
    · rw [hothers hut]
      exact h.labels.allocated u k hu
  · intro u shape hu
    have hut : u ≠ t := by
      rintro rfl
      rw [hnew] at hu
      cases hu
    rw [hothers hut]
    exact h.keeps u shape hu

theorem setAttributes (h : s.Relabels c own key key' s') (t : NodeId) (attributes : Attributes) :
    s.Relabels c own key key' { s' with graph := s'.graph.addAttributes t attributes } := by
  have hkeeps := TypeGraph.keeps_addAttributes s'.graph t attributes
  refine ⟨⟨h.labels.documents_eq, h.labels.indexed.of_retains hkeeps.retains
      (TypeGraph.interned_addAttributes _ _ _), h.labels.consed.addAttributes t attributes, ?_, ?_,
    h.labels.injective, h.labels.named, h.labels.based⟩, h.keeps.trans hkeeps, h.bound, h.extends_key,
    h.fresh⟩
  · intro u shape hu
    rw [TypeGraph.shape?_addAttributes] at hu
    exact h.labels.suits u shape hu
  · intro u k hu
    rw [TypeGraph.shape?_addAttributes]
    exact h.labels.allocated u k hu

/-- A path is bound to the node that has the key of the schema there. -/
theorem setBound (h : s.Relabels c own key key' s') (hfree : s'.nodeOf? path = none)
    (hpath : path.IsAddressable → c.StandsFor key' path t) :
    s.Relabels c own key key' { s' with bound := (path, t) :: s'.bound } := by
  have hbound : ∀ other u, s'.nodeOf? other = some u →
      Progress.nodeOf? { s' with bound := (path, t) :: s'.bound } other = some u :=
    fun other u hu => bound_bind hfree t hu
  refine ⟨⟨h.labels.documents_eq, h.labels.indexed, h.labels.consed, h.labels.suits,
    h.labels.allocated, h.labels.injective, ?_, ?_⟩, h.keeps,
    fun other u hu => hbound other u (h.bound other u hu), h.extends_key, h.fresh⟩
  · intro other u haddressable hu
    rw [nodeOf?_bind] at hu
    split at hu
    · next heq =>
      cases hu
      rw [heq] at haddressable ⊢
      exact hpath haddressable
    · exact h.labels.named other u haddressable hu
  · intro u base part hu
    exact (h.labels.based u base part hu).imp fun v hv => hbound base v hv

end Relabels

/-- A union or intersection has been made for a part of a schema and waits for its members. -/
structure Begins (c : Corpus) (own : Reference → Part → Prop) (key : NodeId → Option Key)
    (s : Progress MemoryStore) (base : Reference) (part : Part) (t : NodeId)
    (key' : NodeId → Option Key) (s' : Progress MemoryStore) : Prop where
  relabels : s.Relabels c own key key' s'
  is_new : s.graph.shape? t = none
  key_eq : key' t = some (.part base part)
  others : ∀ other, other ≠ part → Untaken key base other → Untaken key' base other
  waits : s'.graph.shape? t = some (.combination part.operation none)

/-- A union or intersection is made for a part of the schema at a path that is bound to it in the same
moment. -/
theorem Labels.begins (h : s.Labels c key) (hfree : s.nodeOf? base = none)
    (hkey : c.PathKey base (.part base part)) (own : Reference → Part → Prop) :
    s.Begins c own key base part s.graph.nodes.length
      (Function.update key s.graph.nodes.length (some (.part base part)))
      { s with
        graph := (s.graph.declare part.operation).2
        bound := (base, s.graph.nodes.length) :: s.bound } := by
  have hspec := TypeGraph.declare_spec h.indexed part.operation
  exact ⟨h.open hfree hkey own, hspec.is_new, Function.update_self ..,
    fun _ hne hother => hother.update hne _, hspec.has_shape⟩

/-! ## Rules for operations -/

open Conversion

/-- The node of a shape has the key that the shape has. -/
theorem Labels.intern_returns (h : s.Labels c key) {shape : Shape}
    (hshape : shape.isCombination = false) (hsuits : c.Suits key shape k) :
    Returns (onGraph (·.intern shape)) s fun t s' =>
      ∃ key', s.Relabels c OwnsNothing key key' s' ∧ key' t = some k :=
  Meets.onGraph (h.intern hshape hsuits OwnsNothing)

/-- A union or intersection is made for a part of a schema that no node has been made for. -/
theorem Labels.declare_returns (h : s.Labels c key) (hbase : ∃ u, s.nodeOf? base = some u)
    (huntaken : Untaken key base part) (parts : Part → Prop) (hpart : parts part) :
    Returns (Conversion.declare part.operation) s fun t s' =>
      ∃ key', s.Begins c (Owns base parts) key base part t key' s' := by
  obtain ⟨u, hu⟩ := hbase
  have hspec := TypeGraph.declare_spec h.indexed part.operation
  exact Meets.onGraph ⟨_, h.declare hu huntaken ⟨rfl, hpart⟩, hspec.is_new, Function.update_self ..,
    fun _ hne hother => hother.update hne _, hspec.has_shape⟩

/-- A union or intersection gets its members, whatever has been done in between. -/
theorem Begins.fill (h : s.Begins c own key base part t key' s') {place : Place}
    (hs : s'.Relabels c own key' key'' s'') (hplace : c.place? base = some place)
    {members : SortedSet NodeId} (hmembers : Collects key'' members (c.MemberKey place part)) :
    Returns (setMembers t members) s'' fun _ s₃ =>
      s.Relabels c own key key'' s₃ ∧ key'' t = some (.part base part) := by
  have hkey := hs.extends_key _ _ h.key_eq
  have hwaits := hs.keeps _ _ h.waits
  refine Meets.setMembers (by rw [hwaits]; rfl) ⟨?_, hkey⟩
  exact (h.relabels.trans hs).fill h.is_new hkey hwaits hplace hmembers

theorem Relabels.addAttributes (h : s.Relabels c own key key' s') (t : NodeId)
    (attributes : Attributes) :
    Returns (Conversion.addAttributes t attributes) s' fun _ s'' => s.Relabels c own key key' s'' :=
  Meets.addAttributes (h.setAttributes t attributes)

/-- A path is bound to the node that has the key of the schema there. -/
theorem Relabels.bind (h : s.Relabels c own key key' s')
    (hpath : path.IsAddressable → c.StandsFor key' path t) :
    Returns (Conversion.bind path t) s' fun _ s'' => s.Relabels c own key key' s'' ∧
      s''.nodeOf? path = some t := by
  refine bind_returns (fun hfree => ⟨h.setBound hfree hpath, ?_⟩) fun hold => ⟨h, hold⟩
  rw [nodeOf?_bind, if_pos rfl]

end Progress

end ShapeGraph
