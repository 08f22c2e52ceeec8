import ShapeGraph.Proofs.Mirroring
import ShapeGraph.Proofs.Sharing

/-!
# Requests that link answers

Whoever builds a graph knows only those of its nodes that earlier requests have been answered with.  As
long as requests link no others, parts and links never lead out of the graph.

## Main definitions

* `Request.handles` — the nodes that a request asks to link.
* `TypeGraph.LinksAnswers` — each request only links nodes that earlier ones were answered with.
* `TypeGraph.Grounded` — all parts and links lead to nodes of the graph.

## Main results

* `TypeGraph.performAll_induction` — what each request keeps that links nodes of the graph, each such
  sequence of requests keeps.
* `TypeGraph.grounded_performAll` — parts and links never lead out of the graph.

## Design

Requests that fail are not excluded: members may be asked for where the node is no union or intersection,
which replaces its links all the same.
-/

set_option autoImplicit false

namespace ShapeGraph

/-! ## Handles -/

/-- The nodes that a request asks to link: the parts that it names, and the node that is given members. -/
def Request.handles : Request → List NodeId
  | .primitive _ | .enum _ | .declare _ | .addAttributes _ _ | .addTopLevel _ _ => []
  | .array items => [items]
  | .map values => [values]
  | .record properties => properties.map Property.target
  | .setMembers t members => t :: members.toList

/-- A request links the parts of the shape that it wants a node of. -/
theorem Request.mem_handles_of_wanted {r : Request} {shape : Shape} (h : r.wanted? = some shape)
    {part : Role × NodeId} (hpart : part ∈ shape.parts) : part.2 ∈ r.handles := by
  cases r <;> cases h <;> simp_all [Shape.parts, handles]
  obtain ⟨p, hp, rfl⟩ := hpart
  exact ⟨p, hp, rfl⟩

namespace TypeGraph

variable {g : TypeGraph}

/-- The node that a request is answered with, if any. -/
def answer? (g : TypeGraph) (r : Request) : Option NodeId :=
  match (g.perform r).1 with
  | .ok t => t
  | .error _ => none

/-- Each request links known nodes only, or nodes that requests before it were answered with. -/
def LinksKnown : TypeGraph → List NodeId → List Request → Prop
  | _, _, [] => True
  | g, known, r :: rest =>
    (∀ t ∈ r.handles, t ∈ known) ∧
      (g.perform r).2.LinksKnown ((g.answer? r).toList ++ known) rest

/-- Whether requests link known nodes only can be found out by performing them. -/
def decidableLinksKnown : (g : TypeGraph) → (known : List NodeId) → (requests : List Request) →
    Decidable (g.LinksKnown known requests)
  | _, _, [] => isTrue trivial
  | g, known, r :: rest =>
    have := decidableLinksKnown (g.perform r).2 ((g.answer? r).toList ++ known) rest
    inferInstanceAs (Decidable (_ ∧ _))

/-- Each request only links nodes that requests before it were answered with, from the graph without nodes
on. -/
def LinksAnswers (requests : List Request) : Prop := empty.LinksKnown [] requests

instance (requests : List Request) : Decidable (LinksAnswers requests) :=
  decidableLinksKnown empty [] requests

/-- The node that a request is answered with is there from then on. -/
theorem lt_length_of_answer? (hg : g.Shares) {r : Request} {t : NodeId} (h : g.answer? r = some t) :
    t < (g.perform r).2.nodes.length := by
  have hok : (g.perform r).1 = .ok (some t) := by
    unfold answer? at h
    split at h
    · next hresult => rw [hresult, h]
    · cases h
  obtain ⟨shape, hshape, -⟩ := shape?_of_answer hg hok
  exact lt_length_of_shape? hshape

/-- No request takes a node away. -/
theorem length_le_perform (g : TypeGraph) (r : Request) :
    g.nodes.length ≤ (g.perform r).2.nodes.length :=
  @perform_preserves g (fun h => g.nodes.length ≤ h.nodes.length) r
    (fun shape _ => (keeps_intern g shape).length_le)
    (fun _ => (keeps_allocate g _).length_le)
    (fun t members _ => (length_replaceMembers g t members).symm.le)
    (fun t attributes _ => (length_addAttributes g t attributes).symm.le)
    fun _ _ => Nat.le_refl _

/-- What is kept by each request that only links nodes of the graph is kept by each sequence of requests
that only link answers.

**Proof sketch.** Induction on the requests, with the known nodes generalized: all of them are nodes of the
graph, since what a request is answered with is one, and nodes are never taken away. -/
theorem performAll_of_linksKnown (inv : TypeGraph → Prop)
    (step : ∀ g r, inv g → (∀ t ∈ r.handles, t < g.nodes.length) → inv (g.perform r).2)
    {requests : List Request} {known : List NodeId} (hg : g.Shares) (hinv : inv g)
    (hknown : ∀ t ∈ known, t < g.nodes.length) (hrequests : g.LinksKnown known requests) :
    inv (g.performAll requests) := by
  induction requests generalizing g known with
  | nil => exact hinv
  | cons r rest ih =>
    obtain ⟨hr, hrest⟩ := hrequests
    refine ih (hg.perform r) (step g r hinv fun t ht => hknown t (hr t ht)) ?_ hrest
    intro t ht
    rcases List.mem_append.1 ht with hanswer | hold
    · exact lt_length_of_answer? hg (by simpa using hanswer)
    · exact Nat.lt_of_lt_of_le (hknown t hold) (length_le_perform g r)

/-- The same from the graph without nodes on. -/
theorem performAll_induction (inv : TypeGraph → Prop) (start : inv empty)
    (step : ∀ g r, inv g → (∀ t ∈ r.handles, t < g.nodes.length) → inv (g.perform r).2)
    {requests : List Request} (hrequests : LinksAnswers requests) :
    inv (empty.performAll requests) :=
  performAll_of_linksKnown inv step .empty start (by simp) hrequests

/-! ## Grounded graphs -/

/-- All parts of nodes are nodes of the graph, and all links are between such. -/
structure Grounded (g : TypeGraph) : Prop where
  part_lt : ∀ t shape, g.shape? t = some shape → ∀ part ∈ shape.parts, part.2 < g.nodes.length
  source_lt : ∀ l ∈ g.links, l.source < g.nodes.length
  target_lt : ∀ l ∈ g.links, l.target < g.nodes.length

theorem length_allocate (g : TypeGraph) (shape : Shape) :
    (g.allocate shape).2.nodes.length = g.nodes.length + 1 := by
  simp [allocate, addLinks]

/-- New links lead from the node to the given parts. -/
theorem mem_links_addLinks {source : NodeId} {parts : List (Role × NodeId)} {l : Link}
    (h : l ∈ (g.addLinks source parts).links) :
    l ∈ g.links ∨ l.source = source ∧ (l.role, l.target) ∈ parts := by
  rcases List.mem_append.1 h with hold | hnew
  · exact Or.inl hold
  · refine Or.inr ⟨Link.source_of_mem_toParts hnew, ?_⟩
    rw [← Link.map_part_toParts source g.linksMade parts]
    exact List.mem_map_of_mem hnew

namespace Grounded

theorem empty : Grounded .empty :=
  ⟨by simp [TypeGraph.empty, shape?], by simp [TypeGraph.empty], by simp [TypeGraph.empty]⟩

theorem allocate (hg : g.Grounded) {shape : Shape}
    (hparts : ∀ part ∈ shape.parts, part.2 < g.nodes.length) : (g.allocate shape).2.Grounded := by
  have hlength := length_allocate g shape
  refine ⟨fun t other ht part hpart => ?_, fun l hl => ?_, fun l hl => ?_⟩
  · rw [shape?_allocate] at ht
    rw [hlength]
    split at ht
    · cases ht
      exact Nat.lt_succ_of_lt (hparts part hpart)
    · exact Nat.lt_succ_of_lt (hg.part_lt t other ht part hpart)
  · rw [hlength]
    rcases mem_links_addLinks hl with hold | ⟨hsource, -⟩
    · exact Nat.lt_succ_of_lt (hg.source_lt l hold)
    · rw [hsource]
      exact Nat.lt_succ_self _
  · rw [hlength]
    rcases mem_links_addLinks hl with hold | ⟨-, hpart⟩
    · exact Nat.lt_succ_of_lt (hg.target_lt l hold)
    · exact Nat.lt_succ_of_lt (hparts _ hpart)

theorem intern (hg : g.Grounded) {shape : Shape}
    (hparts : ∀ part ∈ shape.parts, part.2 < g.nodes.length) : (g.intern shape).2.Grounded := by
  unfold TypeGraph.intern
  split
  · exact hg
  · have hnew := hg.allocate hparts
    exact ⟨hnew.part_lt, hnew.source_lt, hnew.target_lt⟩

/-- Setting members of one node to others keeps a graph grounded, also if the node takes no members. -/
theorem replaceMembers (hg : g.Grounded) (hstamped : g.Stamped) {t : NodeId}
    {members : SortedSet NodeId} (ht : t < g.nodes.length)
    (hmembers : ∀ m ∈ members, m < g.nodes.length) : (g.replaceMembers t members).Grounded := by
  have hlength := length_replaceMembers g t members
  have hlinks : ∀ l ∈ (g.replaceMembers t members).links,
      l ∈ g.links ∨ l.source = t ∧ l.target ∈ members := by
    intro l hl
    rcases mem_links_addLinks (g := { g with links := Link.removeFrom g.links t }) hl with
      hold | ⟨hsource, hpart⟩
    · exact Or.inl (List.mem_filter.1 ((Link.removeFrom_perm hstamped.nodup t).mem_iff.1 hold)).1
    · obtain ⟨m, hm, heq⟩ := List.mem_map.1 hpart
      have htarget : m = l.target := congrArg Prod.snd heq
      exact Or.inr ⟨hsource, htarget ▸ hm⟩
  refine ⟨fun u shape hu part hpart => ?_, fun l hl => ?_, fun l hl => ?_⟩
  · rw [shape?_replaceMembers] at hu
    rw [hlength]
    split at hu
    · obtain ⟨old, hold, rfl⟩ := Option.map_eq_some_iff.1 hu
      cases old with
      | combination operation previous =>
        obtain ⟨m, hm, rfl⟩ := List.mem_map.1 hpart
        exact hmembers m hm
      | primitive _ | enum _ | array _ | map _ | record _ => exact hg.part_lt t _ hold part hpart
    · exact hg.part_lt u shape hu part hpart
  · rw [hlength]
    rcases hlinks l hl with hold | ⟨rfl, -⟩
    · exact hg.source_lt l hold
    · exact ht
  · rw [hlength]
    rcases hlinks l hl with hold | ⟨-, hmember⟩
    · exact hg.target_lt l hold
    · exact hmembers _ hmember

theorem addAttributes (hg : g.Grounded) (t : NodeId) (attributes : Attributes) :
    (g.addAttributes t attributes).Grounded := by
  refine ⟨fun u shape hu part hpart => ?_, fun l hl => ?_, fun l hl => ?_⟩
  · rw [shape?_addAttributes] at hu
    rw [length_addAttributes]
    exact hg.part_lt u shape hu part hpart
  · rw [links_addAttributes] at hl
    rw [length_addAttributes]
    exact hg.source_lt l hl
  · rw [links_addAttributes] at hl
    rw [length_addAttributes]
    exact hg.target_lt l hl

/-- A request that links nodes of the graph only leaves it grounded. -/
theorem perform (hg : g.Grounded) (hstamped : g.Stamped) {r : Request}
    (hr : ∀ t ∈ r.handles, t < g.nodes.length) : (g.perform r).2.Grounded := by
  cases hwanted : r.wanted? with
  | some shape =>
    rw [perform_of_wanted hwanted]
    exact hg.intern fun part hpart => hr _ (Request.mem_handles_of_wanted hwanted hpart)
  | none =>
    cases r with
    | primitive | enum | array | map | record => cases hwanted
    | declare operation => exact hg.allocate (by simp [Shape.parts])
    | setMembers t members =>
      show (g.setMembers t members).2.Grounded
      rw [setMembers_snd]
      exact hg.replaceMembers hstamped (hr t List.mem_cons_self) fun m hm =>
        hr m (List.mem_cons_of_mem t hm)
    | addAttributes t attributes => exact hg.addAttributes t attributes
    | addTopLevel name t => exact ⟨hg.part_lt, hg.source_lt, hg.target_lt⟩

end Grounded

/-- As long as requests only link answers, parts and links never lead out of the graph. -/
theorem grounded_performAll {requests : List Request} (hrequests : LinksAnswers requests) :
    (empty.performAll requests).Grounded := by
  refine (performAll_induction (fun g => g.Stamped ∧ g.Grounded) ⟨.empty, .empty⟩ ?_ hrequests).2
  rintro g r ⟨hstamped, hg⟩ hr
  exact ⟨hstamped.perform r, hg.perform hstamped hr⟩

end TypeGraph

end ShapeGraph
