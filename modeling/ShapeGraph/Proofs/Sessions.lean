import Mathlib.Logic.Relation
import ShapeGraph.Proofs.Effects
import ShapeGraph.Proofs.Links
import ShapeGraph.Proofs.Membership
import ShapeGraph.Proofs.Runs

/-!
# Sessions

A converter can be used again: runs and conversions of single places follow one another over one graph,
documents may be exchanged in between, and calls may fail.  No call takes anything back or changes
what others have made: it only adds to the graph, to the attributes and to the paths that stand for
nodes.

## Main definitions

* `TypeGraph.Built` — graphs that come about by operations on graphs.
* `TypeGraph.Appends`, `Progress.Appends` — one graph, one progress is another one with more added.
* `Call` — what a session may be asked for.
* `Session.Later`, `Session.CanReach` — the progress that a session can be in.

## Main results

* `TypeGraph.Built.stamped` — in every graph that has been built, stamps tell links apart.
* `Conversion.appends_steady` — each step of a conversion adds to what there has been at its start.
* `Session.call_appends` — every call of a session appends, also when it fails.

## Design

A node that waited for members before a call still waits for them afterwards.  So only nodes that are
made by the call itself may be given members; this is what the nodes in custody are.
-/

set_option autoImplicit false

namespace ShapeGraph

/-- Merging empty attributes changes nothing. -/
theorem Attributes.merge_of_isEmpty (a : Attributes) {b : Attributes} (hb : b.isEmpty = true) :
    a.merge b = a := by
  obtain ⟨hnames, hdescriptions⟩ := Bool.and_eq_true_iff.1 hb
  have hunion : a.descriptions.union b.descriptions = a.descriptions := by
    refine SortedSet.eq_of_mem_iff fun text => ?_
    rw [SortedSet.mem_union, or_iff_left (SortedSet.isEmpty_iff.1 hdescriptions text)]
  unfold merge Names.merge
  rw [if_pos hnames, hunion]

/-! ## Graphs that have been built -/

namespace TypeGraph

/-- The graph has come about by operations on graphs. -/
inductive Built : TypeGraph → Prop
  | empty : Built .empty
  | intern {g : TypeGraph} (built : Built g) (shape : Shape) : Built (g.intern shape).2
  | declare {g : TypeGraph} (built : Built g) (operation : Operation) :
      Built (g.declare operation).2
  | setMembers {g : TypeGraph} (built : Built g) (t : NodeId) (members : SortedSet NodeId) :
      Built (g.setMembers t members).2
  | addAttributes {g : TypeGraph} (built : Built g) (t : NodeId) (attributes : Attributes) :
      Built (g.addAttributes t attributes)
  | addTopLevel {g : TypeGraph} (built : Built g) (name : String) (t : NodeId) :
      Built (g.addTopLevel name t)

theorem Built.stamped {g : TypeGraph} (h : g.Built) : g.Stamped := by
  induction h with
  | empty => exact .empty
  | intern _ shape ih => exact ih.intern shape
  | declare _ operation ih => exact ih.allocate _
  | setMembers _ t members ih =>
    rw [setMembers_snd]
    exact ih.replaceMembers t members
  | addAttributes _ t attributes ih => exact ih.addAttributes t attributes
  | addTopLevel _ name t ih => exact ⟨ih.nodup, ih.lt_linksMade⟩

/-! ## Attributes of nodes -/

theorem attributes_of_lt {g : TypeGraph} {t : NodeId} (ht : t < g.nodes.length) :
    g.attributes t = g.nodes[t].attributes := by
  unfold attributes
  rw [List.getElem?_eq_getElem ht]
  rfl

theorem nodes_allocate (g : TypeGraph) (shape : Shape) :
    (g.allocate shape).2.nodes = g.nodes ++ [⟨shape, .empty⟩] := rfl

/-- A node that is not there has no attributes. -/
theorem attributes_of_le {g : TypeGraph} {t : NodeId} (ht : g.nodes.length ≤ t) :
    g.attributes t = .empty := by
  unfold attributes
  rw [List.getElem?_eq_none ht]
  rfl

/-- A new node has no more attributes than it had before it was there. -/
theorem attributes_allocate (g : TypeGraph) (shape : Shape) (t : NodeId) :
    (g.allocate shape).2.attributes t = g.attributes t := by
  by_cases ht : t < g.nodes.length
  · unfold attributes
    rw [nodes_allocate, List.getElem?_append_left ht]
  · rw [attributes_of_le (Nat.le_of_not_lt ht)]
    unfold attributes
    rw [nodes_allocate, List.getElem?_append_right (Nat.le_of_not_lt ht)]
    cases t - g.nodes.length <;> rfl

theorem attributes_intern (g : TypeGraph) (shape : Shape) (t : NodeId) :
    (g.intern shape).2.attributes t = g.attributes t := by
  unfold intern
  split
  · rfl
  · exact attributes_allocate g shape t

theorem attributes_modifyNode (g : TypeGraph) {t u : NodeId} (hu : u < g.nodes.length)
    (f : Node → Node) :
    (g.modifyNode t f).attributes u =
      if u = t then (f g.nodes[u]).attributes else g.attributes u := by
  unfold attributes modifyNode
  rw [List.getElem?_modify, List.getElem?_eq_getElem hu]
  by_cases h : t = u
  · simp [h]
  · simp [h, Ne.symm h]

/-- The attributes of a node stay unless the change is one of these attributes. -/
theorem attributes_modifyNode_of_eq (g : TypeGraph) {t u : NodeId} {f : Node → Node}
    (hf : u = t → ∀ n, (f n).attributes = n.attributes) :
    (g.modifyNode t f).attributes u = g.attributes u := by
  unfold attributes modifyNode
  rw [List.getElem?_modify]
  by_cases h : t = u
  · simp [h, hf h.symm, Function.comp_def]
  · simp [h]

theorem attributes_replaceMembers (g : TypeGraph) (t : NodeId) (members : SortedSet NodeId)
    (u : NodeId) : (g.replaceMembers t members).attributes u = g.attributes u :=
  attributes_modifyNode_of_eq (addLinks { g with links := Link.removeFrom g.links t } t _)
    fun _ _ => rfl

/-- Attributes are merged into those that a node has. -/
theorem attributes_addAttributes_self {g : TypeGraph} {t : NodeId} (ht : t < g.nodes.length)
    (attributes : Attributes) :
    (g.addAttributes t attributes).attributes t = (g.attributes t).merge attributes := by
  unfold addAttributes
  by_cases hempty : attributes.isEmpty = true
  · rw [if_pos hempty, Attributes.merge_of_isEmpty _ hempty]
  · rw [if_neg hempty, attributes_modifyNode g ht, if_pos rfl, attributes_of_lt ht]

/-- Attributes are attached to one node only. -/
theorem attributes_addAttributes_of_ne (g : TypeGraph) {t u : NodeId} (hne : u ≠ t)
    (attributes : Attributes) : (g.addAttributes t attributes).attributes u = g.attributes u := by
  unfold addAttributes
  split
  · rfl
  · exact attributes_modifyNode_of_eq g fun heq => absurd heq hne

/-- Further attributes are merged into those that a node has. -/
theorem attributes_addAttributes (g : TypeGraph) {t u : NodeId} (hu : u < g.nodes.length)
    (attributes : Attributes) :
    (g.addAttributes t attributes).attributes u = g.attributes u ∨
      (g.addAttributes t attributes).attributes u = (g.attributes u).merge attributes := by
  by_cases h : u = t
  · subst h
    exact Or.inr (attributes_addAttributes_self hu attributes)
  · exact Or.inl (attributes_addAttributes_of_ne g h attributes)

/-! ## Adding to graphs -/

/-- One graph is another one with more added: every node keeps its index, its shape and its links, has
all descriptions that it had, and its names have only changed by merging others into them. -/
structure Appends (g h : TypeGraph) : Prop where
  keeps : g.Keeps h
  links_perm : ∀ t, t < g.nodes.length → (h.linksFrom t).Perm (g.linksFrom t)
  descriptions : ∀ t, t < g.nodes.length → ∀ text ∈ (g.attributes t).descriptions,
    text ∈ (h.attributes t).descriptions
  names : ∀ t, t < g.nodes.length → ∃ others : List Names,
    (h.attributes t).names = others.foldl Names.merge (g.attributes t).names

namespace Appends

variable {g h k : TypeGraph}

theorem refl (g : TypeGraph) : g.Appends g :=
  ⟨Keeps.refl g, fun _ _ => List.Perm.refl _, fun _ _ _ ht => ht, fun _ _ => ⟨[], rfl⟩⟩

theorem trans (hgh : g.Appends h) (hhk : h.Appends k) : g.Appends k := by
  have hlt : ∀ {t}, t < g.nodes.length → t < h.nodes.length :=
    fun ht => Nat.lt_of_lt_of_le ht hgh.keeps.length_le
  refine ⟨hgh.keeps.trans hhk.keeps, fun t ht => ?_, fun t ht text htext => ?_, fun t ht => ?_⟩
  · exact (hhk.links_perm t (hlt ht)).trans (hgh.links_perm t ht)
  · exact hhk.descriptions t (hlt ht) text (hgh.descriptions t ht text htext)
  · obtain ⟨first, hfirst⟩ := hgh.names t ht
    obtain ⟨second, hsecond⟩ := hhk.names t (hlt ht)
    refine ⟨first ++ second, ?_⟩
    rw [List.foldl_append, ← hfirst, hsecond]

/-- Where attributes stay as they are, only shapes and links count. -/
theorem of_attributes_eq (hkeeps : g.Keeps h)
    (hlinks : ∀ t, t < g.nodes.length → (h.linksFrom t).Perm (g.linksFrom t))
    (hattributes : ∀ t, t < g.nodes.length → h.attributes t = g.attributes t) : g.Appends h := by
  refine ⟨hkeeps, hlinks, fun t ht text htext => ?_, fun t ht => ⟨[], ?_⟩⟩
  · rwa [hattributes t ht]
  · rw [hattributes t ht]
    rfl

theorem allocate (g : TypeGraph) (shape : Shape) : g.Appends (g.allocate shape).2 :=
  of_attributes_eq (keeps_allocate g shape)
    (fun _ ht => List.Perm.of_eq (linksFrom_allocate (Nat.ne_of_lt ht) shape))
    fun t _ => attributes_allocate g shape t

theorem intern (g : TypeGraph) (shape : Shape) : g.Appends (g.intern shape).2 :=
  of_attributes_eq (keeps_intern g shape)
    (fun _ ht => List.Perm.of_eq (linksFrom_intern ht shape)) fun t _ => attributes_intern g shape t

theorem addAttributes (g : TypeGraph) (t : NodeId) (attributes : Attributes) :
    g.Appends (g.addAttributes t attributes) := by
  constructor
  · exact keeps_addAttributes g t attributes
  · intro u _
    rw [linksFrom_addAttributes]
  · intro u hu text htext
    rcases attributes_addAttributes g hu attributes with heq | heq
    · rwa [heq]
    · rw [heq]
      exact SortedSet.mem_union.2 (Or.inl htext)
  · intro u hu
    rcases attributes_addAttributes g hu attributes with heq | heq
    · exact ⟨[], by rw [heq]; rfl⟩
    · exact ⟨[attributes.names], by rw [heq]; rfl⟩

theorem addTopLevel (g : TypeGraph) (name : String) (t : NodeId) :
    g.Appends (g.addTopLevel name t) :=
  of_attributes_eq (Keeps.refl g) (fun _ _ => List.Perm.refl _) fun _ _ => rfl

/-- Members may be set as long as the node has been added. -/
theorem replaceMembers (hgh : g.Appends h) (hstamped : h.Stamped) {t : NodeId}
    (ht : g.nodes.length ≤ t) (members : SortedSet NodeId) :
    g.Appends (h.replaceMembers t members) := by
  have hne : ∀ {u}, u < g.nodes.length → u ≠ t := fun hu => Nat.ne_of_lt (Nat.lt_of_lt_of_le hu ht)
  have hattributes : ∀ u, u < g.nodes.length →
      (h.replaceMembers t members).attributes u = h.attributes u :=
    fun u _ => attributes_replaceMembers h t members u
  constructor
  · intro u shape hu
    rw [shape?_replaceMembers_of_ne h (hne (lt_length_of_shape? hu))]
    exact hgh.keeps u shape hu
  · intro u hu
    exact (linksFrom_replaceMembers_perm hstamped (hne hu) members).trans (hgh.links_perm u hu)
  · intro u hu text htext
    rw [hattributes u hu]
    exact hgh.descriptions u hu text htext
  · intro u hu
    rw [hattributes u hu]
    exact hgh.names u hu

end Appends

end TypeGraph

/-! ## Adding to the progress -/

/-- One progress is another one with more added to the graph and to the paths that stand for nodes. -/
structure Progress.Appends {σ : Type} (s s' : Progress σ) : Prop where
  graph : s.graph.Appends s'.graph
  bound : ∀ path t, s.nodeOf? path = some t → s'.nodeOf? path = some t

namespace Progress.Appends

variable {σ : Type} {s s' s'' : Progress σ}

theorem refl (s : Progress σ) : s.Appends s := ⟨.refl _, fun _ _ h => h⟩

theorem trans (h : s.Appends s') (h' : s'.Appends s'') : s.Appends s'' :=
  ⟨h.graph.trans h'.graph, fun path t ht => h'.bound path t (h.bound path t ht)⟩

theorem setGraph (h : s.Appends s') {g : TypeGraph} (hg : s'.graph.Appends g) :
    s.Appends { s' with graph := g } :=
  ⟨h.graph.trans hg, h.bound⟩

end Progress.Appends

namespace Conversion

variable {σ : Type} [DocumentSource σ]

open Progress

/-- Each step of a conversion adds to what there has been at its start, as members are only set for
nodes that have been made since. -/
theorem appends_steady (s₀ : Progress σ) :
    Steady (fun s => s.graph.Stamped ∧ s₀.Appends s) (s₀.graph.nodes.length ≤ ·) where
  interned s shape _ := fun ⟨hs, h⟩ => ⟨hs.intern shape, h.setGraph (.intern s.graph shape)⟩
  declared s _ := fun ⟨hs, h⟩ =>
    ⟨h.graph.keeps.length_le, hs.allocate _, h.setGraph (.allocate s.graph _)⟩
  filled _ t members ht := fun ⟨hs, h⟩ =>
    ⟨hs.replaceMembers t members, h.graph.replaceMembers hs ht members, h.bound⟩
  attributed s t attributes := fun ⟨hs, h⟩ =>
    ⟨hs.addAttributes t attributes, h.setGraph (.addAttributes s.graph t attributes)⟩
  bindPath _ _ t := fun ⟨hs, h⟩ hpath =>
    ⟨hs, h.graph, fun other n hn => bound_bind hpath t (h.bound other n hn)⟩
  allows _ _ := trivial
  chained _ _ := fun ⟨hs, h⟩ => ⟨hs, h.graph, h.bound⟩
  fetched _ _ := fun ⟨hs, h⟩ => ⟨hs, h.graph, h.bound⟩

/-- Only naming a node changes the names that nodes are known by. -/
theorem topLevels_steady (topLevels : SortedMap String NodeId) :
    Steady (σ := σ) (fun s => s.graph.topLevels = topLevels) (fun _ => True) where
  interned s shape _ hs := by
    rw [← hs]
    unfold TypeGraph.intern
    split <;> rfl
  declared _ _ hs := ⟨trivial, hs⟩
  filled _ _ _ _ hs := hs
  attributed s t attributes hs := by
    rw [← hs]
    exact TypeGraph.topLevels_addAttributes s.graph t attributes
  bindPath _ _ _ hs _ := hs
  allows _ _ := trivial
  chained _ _ hs := hs
  fetched _ _ hs := hs

/-- The progress that a conversion leaves behind, whether it succeeds or fails. -/
def progressAfter {α : Type} (x : Conversion σ α) (s : Progress σ) : Progress σ :=
  match x s with
  | .ok _ s' => s'
  | .error _ s' => s'

omit [DocumentSource σ] in
/-- What a conversion keeps holds afterwards, whether it succeeds or fails. -/
theorem Preserves.progressAfter {α : Type} {inv : Progress σ → Prop} {allowed : Failure → Prop}
    {x : Conversion σ α} (hx : Preserves inv allowed x) {s : Progress σ} (hs : inv s) :
    inv (Conversion.progressAfter x s) := by
  have hmeets := hx s hs
  unfold Conversion.progressAfter
  cases hrun : x s with
  | ok a s' => exact hmeets.of_eq_ok hrun
  | error e s' => exact (hmeets.of_eq_error hrun).1

/-- A path that stands for a node is not converted anew. -/
theorem toType_of_bound {place : Place} {s : Progress σ} {t : NodeId}
    (ht : s.nodeOf? place.path = some t) (limit budget : Nat) (hints : Names) :
    toType limit budget place hints s = .ok t s := by
  have hbound : bound? place.path s = .ok (some t) s := by
    rw [← ht]
    rfl
  cases budget <;>
  · unfold toType
    change EStateM.bind (bound? place.path) _ s = _
    unfold EStateM.bind
    rw [hbound]
    rfl

theorem convertAt_of_bound {place : Place} {s : Progress σ} {t : NodeId}
    (ht : s.nodeOf? place.path = some t) (limit : Option Nat) (extent : Extent) (hints : Names)
    (depth : Nat) :
    Meets (convertAt limit extent place hints depth) s (fun u s' => u = t ∧ s' = s)
      fun _ _ => False := by
  unfold Meets convertAt
  rw [toType_of_bound ht]
  exact ⟨rfl, rfl⟩

end Conversion

/-! ## Sessions -/

/-- What a session may be asked for. -/
inductive Call where
  /-- A run. -/
  | convert (root : Json) (rootAddress : String) (topLevels : SortedMap String Reference)
  /-- The conversion of a single place that is itself at some depth. -/
  | toType (place : Place) (hints : Names) (depth : Nat)

namespace Session

open Conversion

variable {σ : Type} [DocumentSource σ]

/-- The progress after a call, whether it succeeds or fails. -/
def after (limit : Option Nat) (s : Progress σ) : Call → Progress σ
  | .convert root rootAddress topLevels =>
    progressAfter (convertAll limit root rootAddress topLevels) s
  | .toType place hints depth => progressAfter (convertOne limit place hints depth) s

/-- One step of a session: a call, or other documents in place of those that there are. -/
inductive Step (limit : Option Nat) (s : Progress σ) : Progress σ → Prop
  | call (call : Call) : Step limit s (after limit s call)
  | exchange (documents : σ) : Step limit s { s with documents := documents }

/-- One progress comes later in a session than another one. -/
def Later (limit : Option Nat) : Progress σ → Progress σ → Prop :=
  Relation.ReflTransGen (Step limit)

/-- A session can be in this progress.  It starts with any graph that has been built, any documents, and
no path that stands for a node. -/
def CanReach (limit : Option Nat) (s : Progress σ) : Prop :=
  ∃ graph documents, graph.Built ∧ Later limit ⟨graph, documents, [], []⟩ s

variable {limit : Option Nat} {s s' : Progress σ}

/-- A call adds to what there has been. -/
theorem appends_after (hs : s.graph.Stamped) (call : Call) :
    (after limit s call).graph.Stamped ∧ s.Appends (after limit s call) := by
  have hsteady := appends_steady s
  have hstart := And.intro hs (Progress.Appends.refl s)
  cases call with
  | convert root rootAddress topLevels =>
    refine (convertAll_preserves hsteady (fun s' name t h => ?_) limit root rootAddress
      topLevels).progressAfter hstart
    exact ⟨⟨h.1.nodup, h.1.lt_linksMade⟩, h.2.setGraph (.addTopLevel s'.graph name t)⟩
  | toType place hints depth =>
    exact (convertOne_preserves hsteady limit place hints depth).progressAfter hstart

/-- A step of a session adds to what there has been. -/
theorem Step.appends (hs : s.graph.Stamped) (h : Step limit s s') :
    s'.graph.Stamped ∧ s.Appends s' := by
  cases h with
  | call call => exact appends_after hs call
  | exchange documents => exact ⟨hs, .refl s.graph, fun _ _ ht => ht⟩

/-- Whatever happens in a session adds to what there has been. -/
theorem Later.appends (hs : s.graph.Stamped) (h : Later limit s s') :
    s'.graph.Stamped ∧ s.Appends s' := by
  induction h with
  | refl => exact ⟨hs, .refl s⟩
  | tail _ hstep ih =>
    obtain ⟨hstamped, happends⟩ := hstep.appends ih.1
    exact ⟨hstamped, ih.2.trans happends⟩

theorem CanReach.stamped (h : CanReach limit s) : s.graph.Stamped := by
  obtain ⟨graph, documents, hbuilt, hlater⟩ := h
  exact (hlater.appends hbuilt.stamped).1

/-- The conversion of a single place names no node. -/
theorem topLevels_after_toType (s : Progress σ) (place : Place) (hints : Names) (depth : Nat) :
    (after limit s (.toType place hints depth)).graph.topLevels = s.graph.topLevels :=
  (convertOne_preserves (topLevels_steady s.graph.topLevels) limit place hints depth).progressAfter
    rfl

/-- Every call of a session adds to what there has been, whether it succeeds or fails: each node keeps
its index, its shape and its links, gains descriptions, and changes its names only by merging.  The
conversion of a single place names no node.  A path that stands for a node stands for it ever after,
and each later conversion of it gives that node. -/
theorem call_appends (hs : CanReach limit s) (call : Call) :
    s.Appends (after limit s call) ∧
      (∀ place hints depth, call = .toType place hints depth →
        (after limit s call).graph.topLevels = s.graph.topLevels) ∧
      ∀ path t, s.nodeOf? path = some t → ∀ s', Later limit (after limit s call) s' →
        s'.nodeOf? path = some t ∧ ∀ (place : Place) (hints : Names) (depth : Nat),
          place.path = path → convertOne limit place hints depth s' = .ok t s' := by
  obtain ⟨hstamped, happends⟩ := appends_after hs.stamped call
  refine ⟨happends, ?_, ?_⟩
  · rintro place hints depth rfl
    exact topLevels_after_toType s place hints depth
  · intro path t ht s' hlater
    have hbound := (hlater.appends hstamped).2.bound path t (happends.bound path t ht)
    refine ⟨hbound, ?_⟩
    rintro place hints depth rfl
    exact toType_of_bound hbound _ _ hints

/-- With too small a limit, the run for the list fails.  A second one adds to what it has left. -/
theorem call_appends_list :
    let run := Call.convert listCorpus.root listCorpus.rootAddress listEntries
    let s := after (some 1) (Progress.start listCorpus.store) run
    CanReach (some 1) s ∧ s.nodeOf? (.root "list.json") = some 0 ∧
      s.Appends (after (some 1) s run) ∧
        (after (some 1) s run).nodeOf? (.root "list.json") = some 0 := by
  intro run s
  have hreach : CanReach (some 1) s :=
    ⟨.empty, listCorpus.store, .empty, Relation.ReflTransGen.single (.call run)⟩
  have hroot : s.nodeOf? (.root "list.json") = some 0 := by decide +kernel
  obtain ⟨happends, -, hbound⟩ := call_appends hreach run
  exact ⟨hreach, hroot, happends, (hbound _ _ hroot _ Relation.ReflTransGen.refl).1⟩

end Session

end ShapeGraph
