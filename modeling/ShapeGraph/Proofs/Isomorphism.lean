import Mathlib.Data.Set.Function
import ShapeGraph.Proofs.Completeness
import ShapeGraph.Proofs.LabelledRuns

/-!
# Types do not depend on what else is converted

Two runs over the same documents may convert different references, in different orders and with
different limits, and number their nodes differently.  The types that they find for the same place are
the same apart from that: renaming nodes turns all that can be reached from the one node into all that
can be reached from the other.

## Main definitions

* `Shape.rename` — a shape with other nodes as its parts.
* `TypeGraph.Isomorphic` — renaming nodes turns one rooted graph into another.
* `Shape.Matches` — two shapes are alike, and their parts correspond.

## Main results

* `TypeGraph.isomorphic_of_matches` — where nodes that correspond have matching shapes, and no node
  corresponds to two others, the graphs are isomorphic.
* `Conversion.convertAll_isomorphic` — the nodes that two runs give to one place.
-/

set_option autoImplicit false

namespace ShapeGraph

/-! ## Isomorphic graphs -/

/-- The shape with other nodes as its parts. -/
def Shape.rename (f : NodeId → NodeId) : Shape → Shape
  | .primitive kind => .primitive kind
  | .enum texts => .enum texts
  | .array items => .array (f items)
  | .map values => .map (f values)
  | .record properties => .record (properties.map fun p => { p with target := f p.target })
  | .combination operation members => .combination operation (members.map (SortedSet.map f))

namespace TypeGraph

/-- Renaming nodes takes the part of one graph that can be reached from a node to the part of another
graph that can be reached from another node. -/
structure Renames (g : TypeGraph) (t : NodeId) (h : TypeGraph) (u : NodeId) (f : NodeId → NodeId) :
    Prop where
  root_eq : f t = u
  bijOn : Set.BijOn f {v | g.Reaches t v} {w | h.Reaches u w}
  shape_eq : ∀ v, g.Reaches t v →
    ∃ shape, g.shape? v = some shape ∧ h.shape? (f v) = some (shape.rename f)

/-- What can be reached from one node is the same as what can be reached from the other, apart from the
numbers of the nodes. -/
def Isomorphic (g : TypeGraph) (t : NodeId) (h : TypeGraph) (u : NodeId) : Prop :=
  ∃ f, g.Renames t h u f

end TypeGraph

/-! ## Matching shapes -/

/-- Two shapes are of the same kind, and their parts correspond. -/
inductive Shape.Matches (related : NodeId → NodeId → Prop) : Shape → Shape → Prop
  | primitive (kind : Primitive) : Matches related (.primitive kind) (.primitive kind)
  | enum (texts : List String) : Matches related (.enum texts) (.enum texts)
  | array {items items' : NodeId} (items_related : related items items') :
      Matches related (.array items) (.array items')
  | map {values values' : NodeId} (values_related : related values values') :
      Matches related (.map values) (.map values')
  | record {properties properties' : List Property}
      (properties_related : List.Forall₂ (fun (p p' : Property) => p'.name = p.name ∧
        related p.target p'.target ∧ p'.optional = p.optional) properties properties') :
      Matches related (.record properties) (.record properties')
  | combination (operation : Operation) {members members' : SortedSet NodeId}
      (forth : ∀ v ∈ members, ∃ w ∈ members', related v w)
      (back : ∀ w ∈ members', ∃ v ∈ members, related v w) :
      Matches related (.combination operation (some members)) (.combination operation (some members'))

namespace Shape.Matches

variable {related : NodeId → NodeId → Prop} {shape shape' : Shape}

theorem symm (h : shape.Matches related shape') : shape'.Matches (fun w v => related v w) shape := by
  cases h with
  | primitive kind => exact .primitive kind
  | enum texts => exact .enum texts
  | array hitems => exact .array hitems
  | map hvalues => exact .map hvalues
  | record hproperties =>
    refine .record (hproperties.flip.imp ?_)
    exact fun p' p ⟨hname, htarget, hoptional⟩ => ⟨hname.symm, htarget, hoptional.symm⟩
  | combination operation forth back => exact .combination operation back forth

/-- Each part corresponds to some part of the other shape. -/
theorem exists_part (h : shape.Matches related shape') {role : Role} {v : NodeId}
    (hv : (role, v) ∈ shape.parts) : ∃ w, (role, w) ∈ shape'.parts ∧ related v w := by
  cases h with
  | primitive | enum => cases hv
  | array hitems =>
    obtain ⟨rfl, rfl⟩ := Prod.mk.inj (List.mem_singleton.1 hv)
    exact ⟨_, List.mem_singleton.2 rfl, hitems⟩
  | map hvalues =>
    obtain ⟨rfl, rfl⟩ := Prod.mk.inj (List.mem_singleton.1 hv)
    exact ⟨_, List.mem_singleton.2 rfl, hvalues⟩
  | record hproperties =>
    obtain ⟨p, hp, heq⟩ := List.mem_map.1 hv
    obtain ⟨rfl, rfl⟩ := Prod.mk.inj heq
    obtain ⟨p', hp', hname, htarget, -⟩ :=
      Progress.exists_of_forall₂ hproperties hp
    exact ⟨p'.target, List.mem_map.2 ⟨p', hp', by rw [hname]⟩, htarget⟩
  | combination operation forth _ =>
    obtain ⟨m, hm, heq⟩ := List.mem_map.1 hv
    obtain ⟨rfl, rfl⟩ := Prod.mk.inj heq
    obtain ⟨w, hw, hrelated⟩ := forth _ hm
    exact ⟨w, List.mem_map.2 ⟨w, hw, rfl⟩, hrelated⟩

/-- If a renaming takes each part to what corresponds to it, it takes one shape to the other. -/
theorem eq_rename (h : shape.Matches related shape') {f : NodeId → NodeId}
    (hf : ∀ v w, related v w → f v = w) : shape' = shape.rename f := by
  cases h with
  | primitive | enum => rfl
  | array hitems => rw [rename, hf _ _ hitems]
  | map hvalues => rw [rename, hf _ _ hvalues]
  | record hproperties =>
    rw [rename]
    congr 1
    induction hproperties with
    | nil => rfl
    | @cons p p' _ _ hfirst _ ih =>
      obtain ⟨hname, htarget, hoptional⟩ := hfirst
      rw [List.map_cons, ← ih, hf _ _ htarget, ← hname, ← hoptional]
  | combination operation forth back =>
    rw [rename, Option.map_some]
    congr 2
    refine SortedSet.eq_of_mem_iff fun w => ?_
    rw [SortedSet.mem_map]
    constructor
    · intro hw
      obtain ⟨v, hv, hrelated⟩ := back w hw
      exact ⟨v, hv, hf v w hrelated⟩
    · rintro ⟨v, hv, rfl⟩
      obtain ⟨w, hw, hrelated⟩ := forth v hv
      rwa [hf v w hrelated]

end Shape.Matches

namespace TypeGraph

variable {g h : TypeGraph} {related : NodeId → NodeId → Prop} {t u v : NodeId}

/-- Nodes that correspond have matching shapes. -/
def Simulates (g h : TypeGraph) (related : NodeId → NodeId → Prop) : Prop :=
  ∀ v w, related v w → ∃ shape shape', g.shape? v = some shape ∧ h.shape? w = some shape' ∧
    shape.Matches related shape'

theorem Simulates.symm (hsim : g.Simulates h related) : h.Simulates g fun w v => related v w := by
  intro w v hrelated
  obtain ⟨shape, shape', hv, hw, hmatches⟩ := hsim v w hrelated
  exact ⟨shape', shape, hw, hv, hmatches.symm⟩

/-- Whatever can be reached corresponds to something that can be reached: by induction on the way. -/
theorem Simulates.reaches (hsim : g.Simulates h related) (hroot : related t u)
    (hreaches : g.Reaches t v) : ∃ w, h.Reaches u w ∧ related v w := by
  induction hreaches with
  | refl => exact ⟨u, Relation.ReflTransGen.refl, hroot⟩
  | tail _ hpart ih =>
    obtain ⟨w, hw, hrelated⟩ := ih
    obtain ⟨shape, role, hshape, hmem⟩ := hpart
    obtain ⟨same, shape', hsame, hshape', hmatches⟩ := hsim _ _ hrelated
    rw [hshape] at hsame
    cases hsame
    obtain ⟨w', hw', hrelated'⟩ := hmatches.exists_part hmem
    exact ⟨w', hw.tail ⟨shape', role, hshape', hw'⟩, hrelated'⟩

/-- Where nodes that correspond have matching shapes, and no node corresponds to two others, the graphs
are isomorphic.

**Proof sketch.** What corresponds to a node is unique, so choosing it is a renaming.  Corresponding
nodes reach corresponding nodes, forth and back, so it is a bijection between what can be reached. -/
theorem isomorphic_of_matches (hsim : g.Simulates h related)
    (hleft : ∀ v v' w, related v w → related v' w → v = v')
    (hright : ∀ v w w', related v w → related v w' → w = w') (hroot : related t u) :
    g.Isomorphic t h u := by
  obtain ⟨f, hf⟩ : ∃ f : NodeId → NodeId, ∀ v w, related v w → f v = w :=
    ⟨fun v => Classical.epsilon (related v), fun v w hrelated =>
      hright v _ w (Classical.epsilon_spec ⟨w, hrelated⟩) hrelated⟩
  refine ⟨f, hf t u hroot, ⟨?_, ?_, ?_⟩, ?_⟩
  · intro v hv
    obtain ⟨w, hw, hrelated⟩ := hsim.reaches hroot hv
    rw [hf v w hrelated]
    exact hw
  · intro v hv v' hv' heq
    obtain ⟨w, -, hrelated⟩ := hsim.reaches hroot hv
    obtain ⟨w', -, hrelated'⟩ := hsim.reaches hroot hv'
    rw [hf v w hrelated, hf v' w' hrelated'] at heq
    exact hleft v v' w hrelated (heq ▸ hrelated')
  · intro w hw
    obtain ⟨v, hv, hrelated⟩ := hsim.symm.reaches hroot hw
    exact ⟨v, hv, hf v w hrelated⟩
  · intro v hv
    obtain ⟨w, -, hrelated⟩ := hsim.reaches hroot hv
    obtain ⟨shape, shape', hshape, hshape', hmatches⟩ := hsim v w hrelated
    rw [hf v w hrelated]
    exact ⟨shape, hshape, hmatches.eq_rename hf ▸ hshape'⟩

end TypeGraph

/-! ## Nodes with the same keys -/

/-- Two nodes have the same key. -/
def SameKey (key key' : NodeId → Option Key) (v w : NodeId) : Prop :=
  ∃ k, key v = some k ∧ key' w = some k

/-- Properties that go by the same entries match one by one. -/
theorem forall₂_sameKey {key key' : NodeId → Option Key} {properties properties' : List Property}
    {entries : List (String × Key × Bool)}
    (h : List.Forall₂ (Corpus.EntryOf key) properties entries)
    (h' : List.Forall₂ (Corpus.EntryOf key') properties' entries) :
    List.Forall₂ (fun p p' => p'.name = p.name ∧ SameKey key key' p.target p'.target ∧
      p'.optional = p.optional) properties properties' := by
  induction h generalizing properties' with
  | nil =>
    cases h'
    exact List.Forall₂.nil
  | cons hfirst _ ih =>
    obtain ⟨hname, htarget, hoptional⟩ := hfirst
    cases h' with
    | cons hfirst' hrest' =>
      obtain ⟨hname', htarget', hoptional'⟩ := hfirst'
      exact List.Forall₂.cons ⟨hname'.trans hname.symm, ⟨_, htarget, htarget'⟩,
        hoptional'.trans hoptional.symm⟩ (ih hrest')

/-- Nodes that go by the same key match, unless they wait for their members. -/
theorem Corpus.Suits.matches {c : Corpus} {key key' : NodeId → Option Key} {shape shape' : Shape}
    {k : Key} (h : c.Suits key shape k) (h' : c.Suits key' shape' k) (hset : shape.isUnset = false)
    (hset' : shape'.isUnset = false) : shape.Matches (SameKey key key') shape' := by
  cases h with
  | primitive kind =>
    cases h'
    exact .primitive kind
  | enum texts =>
    cases h'
    exact .enum texts
  | array hitems =>
    cases h' with
    | array hitems' => exact .array ⟨_, hitems, hitems'⟩
  | map hvalues =>
    cases h' with
    | map hvalues' => exact .map ⟨_, hvalues, hvalues'⟩
  | record hentries =>
    cases h' with
    | record hentries' => exact .record (forall₂_sameKey hentries hentries')
  | unset => cases hset
  | set hplace hcollects =>
    cases h' with
    | unset => cases hset'
    | set hplace' hcollects' =>
      rw [hplace] at hplace'
      cases hplace'
      refine .combination _ (fun v hv => ?_) fun w hw => ?_
      · obtain ⟨k, hk, hmember⟩ := hcollects.1 v hv
        obtain ⟨w, hw, hk'⟩ := hcollects'.2 k hmember
        exact ⟨w, hw, k, hk, hk'⟩
      · obtain ⟨k, hk', hmember⟩ := hcollects'.1 w hw
        obtain ⟨v, hv, hk⟩ := hcollects.2 k hmember
        exact ⟨v, hv, k, hk, hk'⟩

namespace Conversion

open Progress

variable {c : Corpus} {s s' : Progress MemoryStore}

/-- Nodes of the same key have matching shapes, once nothing is half-built any more. -/
theorem simulates_sameKey {key key' : NodeId → Option Key} (h : s.Labels c key) (hs : s.Whole)
    (h' : s'.Labels c key') (hs' : s'.Whole) :
    s.graph.Simulates s'.graph (SameKey key key') := by
  have hset : ∀ {shape : Shape}, shape.isFinished = true → shape.isUnset = false := by
    intro shape hfinished
    cases shape with
    | combination operation members =>
      cases members with
      | none => cases hfinished
      | some members => rfl
    | primitive _ | enum _ | array _ | map _ | record _ => rfl
  rintro v w ⟨k, hv, hw⟩
  obtain ⟨shape, hshape⟩ := h.allocated v k hv
  obtain ⟨shape', hshape'⟩ := h'.allocated w k hw
  obtain ⟨same, hsame, hsuits⟩ := h.suits v shape hshape
  obtain ⟨same', hsame', hsuits'⟩ := h'.suits w shape' hshape'
  rw [hv] at hsame
  cases hsame
  rw [hw] at hsame'
  cases hsame'
  exact ⟨shape, shape', hshape, hshape',
    hsuits.matches hsuits' (hset (hs.finished v shape hshape)) (hset (hs'.finished w shape' hshape'))⟩

/-- If two runs over the same documents succeed, a reference of the first one and a reference of the
second one that lead to the same place have isomorphic types: neither the other references, their names
and the order in which they are converted, nor the limits make a difference. -/
theorem convertAll_isomorphic (hc : c.Consistent) {limit limit' : Option Nat}
    {topLevels topLevels' : SortedMap String Reference}
    (hrun : convertAll limit c.root c.rootAddress topLevels (Progress.start c.store) = .ok () s)
    (hrun' : convertAll limit' c.root c.rootAddress topLevels' (Progress.start c.store) = .ok () s')
    {e e' : String × Reference} (he : e ∈ topLevels.entries) (he' : e' ∈ topLevels'.entries)
    (hpath : (c.entry? e.2).map Place.path = (c.entry? e'.2).map Place.path) :
    ∃ t t', s.graph.topLevels.find? e.1 = some t ∧ s'.graph.topLevels.find? e'.1 = some t' ∧
      s.graph.Isomorphic t s'.graph t' := by
  obtain ⟨key, hlabels, hknows⟩ := (convertAll_labels hc limit topLevels).of_eq_ok hrun
  obtain ⟨key', hlabels', hknows'⟩ := (convertAll_labels hc limit' topLevels').of_eq_ok hrun'
  have hwhole := (convertAll_whole c.store limit c.root c.rootAddress topLevels).of_eq_ok hrun
  have hwhole' := (convertAll_whole c.store limit' c.root c.rootAddress topLevels').of_eq_ok hrun'
  obtain ⟨place, t, hplace, ht, k, hk, hkt⟩ := hknows e he
  obtain ⟨place', t', hplace', ht', k', hk', hkt'⟩ := hknows' e' he'
  rw [hplace, hplace', Option.map_some, Option.map_some, Option.some.injEq] at hpath
  rw [← hpath] at hk'
  obtain rfl := hk.unique hk'
  refine ⟨t, t', ht, ht', ?_⟩
  refine TypeGraph.isomorphic_of_matches (simulates_sameKey hlabels hwhole hlabels' hwhole') ?_ ?_
    ⟨_, hkt, hkt'⟩
  · rintro v v' w ⟨k, hv, hw⟩ ⟨same, hv', hsame⟩
    rw [hw] at hsame
    cases hsame
    exact hlabels.injective v v' k hv hv'
  · rintro v w w' ⟨k, hv, hw⟩ ⟨same, hsame, hw'⟩
    rw [hv] at hsame
    cases hsame
    exact hlabels'.injective w w' k hw hw'

/-- The value of the list, before the list itself. -/
def valueEntries : SortedMap String Reference :=
  ⟨[("Item", .parse "list.json" "value.json#"), ("Whole", .parse "value.json" "list.json#")],
    by decide⟩

/-- The list has the same type whether it is converted alone or after its value. -/
theorem convertAll_isomorphic_list :
    ∃ s s', convertAll (some 8) listCorpus.root listCorpus.rootAddress listEntries
        (Progress.start listCorpus.store) = .ok () s ∧
      convertAll (some 9) listCorpus.root listCorpus.rootAddress valueEntries
        (Progress.start listCorpus.store) = .ok () s' ∧
      ∃ t t', s.graph.topLevels.find? "List" = some t ∧
        s'.graph.topLevels.find? "Whole" = some t' ∧ s.graph.Isomorphic t s'.graph t' := by
  have hsucceeds : succeeds
      (convertAll (some 8) listCorpus.root listCorpus.rootAddress listEntries)
      (Progress.start listCorpus.store) = true := by decide +kernel
  have hsucceeds' : succeeds
      (convertAll (some 9) listCorpus.root listCorpus.rootAddress valueEntries)
      (Progress.start listCorpus.store) = true := by decide +kernel
  obtain ⟨_, s, hrun⟩ := exists_eq_ok hsucceeds
  obtain ⟨_, s', hrun'⟩ := exists_eq_ok hsucceeds'
  have hlist : ("List", Reference.parse "list.json" "#") ∈ listEntries.entries :=
    List.mem_singleton.2 rfl
  have hwhole : ("Whole", Reference.parse "value.json" "list.json#") ∈ valueEntries.entries :=
    List.mem_cons_of_mem _ (List.mem_singleton.2 rfl)
  have hpath : (listCorpus.entry? (.parse "list.json" "#")).map Place.path =
      (listCorpus.entry? (.parse "value.json" "list.json#")).map Place.path := by decide +kernel
  exact ⟨s, s', hrun, hrun', convertAll_isomorphic listCorpus_consistent hrun hrun' hlist hwhole hpath⟩

end Conversion

end ShapeGraph
