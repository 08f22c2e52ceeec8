import Mathlib.Algebra.Ring.Nat
import Mathlib.Data.List.MinMax
import Mathlib.Data.Multiset.MapFold
import ShapeGraph.Proofs.Requests

/-!
# Links mirror shapes

As long as members are only set for unions and intersections, the links from a node are those that
its shape prescribes, one for each part.  Setting members takes the links from the node away, the
latest first, while there are any; each time the last link of the whole graph moves to the number that
has become free.  Nothing happens to the links from other nodes but that their numbers change.

## Main definitions

* `Link.drain` — take the links from a node away, one at a time.
* `Shape.prescribed` — the links that a shape prescribes.
* `Request.IsAdmissible`, `TypeGraph.Admits` — members are only set for unions and intersections.
* `TypeGraph.outgoing`, `TypeGraph.numbersFrom` — the links from a node, and their numbers.

## Main results

* `Link.removeFrom_eq_drain` — what a graph does when members are set is this loop.
* `TypeGraph.Mirrored.perform` — an admissible request leaves the links as the shapes prescribe.
* `TypeGraph.performAll_mirrors` — what follows for all sequences of admissible requests.
-/

set_option autoImplicit false

namespace ShapeGraph

/-! ## Taking links away -/

namespace Link

variable {links : List Link} {source : NodeId}

/-- The link from a node that was made last. -/
def latest? (links : List Link) (source : NodeId) : Option Link :=
  (links.filter fun l => l.source = source).argmax Link.stamp

theorem mem_of_latest? {l : Link} (h : latest? links source = some l) :
    l ∈ links ∧ l.source = source := by
  have hmem := List.argmax_mem h
  simpa using hmem

theorem stamp_le_of_latest? {l other : Link} (h : latest? links source = some l)
    (hother : other ∈ links) (hsource : other.source = source) : other.stamp ≤ l.stamp := by
  have hmem : other ∈ links.filter fun l => l.source = source := by simp [hother, hsource]
  exact List.le_of_mem_argmax hmem h

/-- There is no latest link from a node just in case there is none at all. -/
theorem latest?_eq_none_iff : latest? links source = none ↔ ∀ l ∈ links, l.source ≠ source := by
  unfold latest?
  rw [List.argmax_eq_none, List.filter_eq_nil_iff]
  simp

/-- Removing a link that there is leaves fewer. -/
theorem length_remove_lt {l : Link} (h : l ∈ links) :
    (remove links l.stamp).length < links.length := by
  unfold remove
  cases hfind : links.findIdx? (·.stamp == l.stamp) with
  | none =>
    rw [List.findIdx?_eq_none_iff] at hfind
    simpa using hfind l h
  | some i =>
    obtain ⟨hi, -, -⟩ := List.findIdx?_eq_some_iff_getElem.1 hfind
    have hlength := (perm_swapRemove hi).length_eq
    rw [List.length_cons] at hlength
    dsimp only
    omega

/-- Take away the latest link from a node, while there is one. -/
def drain (links : List Link) (source : NodeId) : List Link :=
  match h : latest? links source with
  | none => links
  | some l =>
    have := length_remove_lt (mem_of_latest? h).1
    drain (remove links l.stamp) source
termination_by links.length

theorem drain_of_none (h : latest? links source = none) : drain links source = links := by
  unfold drain
  split
  · rfl
  · next hsome =>
    rw [h] at hsome
    cases hsome

theorem drain_of_some {l : Link} (h : latest? links source = some l) :
    drain links source = drain (remove links l.stamp) source := by
  rw [drain]
  split
  · next hnone =>
    rw [h] at hnone
    cases hnone
  · next other hother =>
    rw [h] at hother
    cases hother
    rfl

/-- A link from a node is its latest one if no link from the node has a greater stamp. -/
theorem latest?_of_greatest {l : Link} (hnodup : (links.map Link.stamp).Nodup) (hmem : l ∈ links)
    (hsource : l.source = source)
    (hgreatest : ∀ other ∈ links, other.source = source → other.stamp ≤ l.stamp) :
    latest? links source = some l := by
  cases hlatest : latest? links source with
  | none => exact absurd hsource (latest?_eq_none_iff.1 hlatest l hmem)
  | some found =>
    obtain ⟨hfound, hfrom⟩ := mem_of_latest? hlatest
    have hstamp : found.stamp = l.stamp :=
      Nat.le_antisymm (hgreatest found hfound hfrom) (stamp_le_of_latest? hlatest hmem hsource)
    rw [List.inj_on_of_nodup_map hnodup hfound hmem hstamp]

/-- Removing a link from a node leaves it the other stamps of its links. -/
theorem filter_stamps_perm_remove (hnodup : (links.map Link.stamp).Nodup) (stamp : Nat) :
    (((links.filter fun l => l.source = source).map Link.stamp).filter fun s => s ≠ stamp).Perm
      (((remove links stamp).filter fun l => l.source = source).map Link.stamp) := by
  refine List.Perm.trans (List.Perm.of_eq ?_)
    (((remove_perm hnodup stamp).filter fun l => l.source = source).map Link.stamp).symm
  rw [List.filter_map, List.filter_filter, List.filter_filter]
  refine congrArg (List.map Link.stamp) (List.filter_congr fun other _ => ?_)
  simp [Bool.and_comm]

/-- Removing links by their stamps, the greatest first, is the loop.

**Proof sketch.** Induction on the stamps.  The first of them is that of the latest link from the
node, and once this is removed the links from the node have the remaining stamps. -/
theorem foldl_remove_eq_drain {stamps : List Nat} (hnodup : (links.map Link.stamp).Nodup)
    (hsorted : stamps.Pairwise (· > ·))
    (hstamps : stamps.Perm ((links.filter fun l => l.source = source).map Link.stamp)) :
    stamps.foldl remove links = drain links source := by
  induction stamps generalizing links with
  | nil =>
    have hnone : latest? links source = none := by
      unfold latest?
      rw [List.argmax_eq_none]
      simpa using hstamps.nil_eq.symm
    rw [drain_of_none hnone, List.foldl_nil]
  | cons stamp rest ih =>
    rw [List.pairwise_cons] at hsorted
    obtain ⟨l, hl, rfl⟩ := List.mem_map.1 (hstamps.mem_iff.1 List.mem_cons_self)
    obtain ⟨hmem, hsource⟩ : l ∈ links ∧ l.source = source := by simpa using hl
    have hlatest : latest? links source = some l := by
      refine latest?_of_greatest hnodup hmem hsource fun other hother hfrom => ?_
      have hin : other.stamp ∈ l.stamp :: rest :=
        hstamps.mem_iff.2 (List.mem_map.2 ⟨other, by simp [hother, hfrom], rfl⟩)
      rcases List.mem_cons.1 hin with heq | hin
      · exact heq.le
      · exact (hsorted.1 _ hin).le
    have hrest : ((l.stamp :: rest).filter fun s => s ≠ l.stamp) = rest := by
      rw [List.filter_cons_of_neg (by simp), List.filter_eq_self.2]
      intro s hs
      simpa using Nat.ne_of_lt (hsorted.1 s hs)
    rw [drain_of_some hlatest, List.foldl_cons]
    refine ih (nodup_remove hnodup l.stamp) hsorted.2 ?_
    have hremaining := hstamps.filter fun s => decide (s ≠ l.stamp)
    rw [hrest] at hremaining
    exact hremaining.trans (filter_stamps_perm_remove hnodup l.stamp)

/-- Different numbers that are sorted, the greatest first, decrease. -/
theorem pairwise_gt_mergeSort {stamps : List Nat} (hnodup : stamps.Nodup) :
    (stamps.mergeSort fun a b => decide (b ≤ a)).Pairwise (· > ·) := by
  have hordered : (stamps.mergeSort fun a b => decide (b ≤ a)).Pairwise
      fun a b => decide (b ≤ a) = true := by
    refine List.pairwise_mergeSort (fun a b c hab hbc => ?_) (fun a b => ?_) _
    · simp only [decide_eq_true_eq] at hab hbc ⊢
      omega
    · simp only [Bool.or_eq_true, decide_eq_true_eq]
      omega
  refine hordered.imp₂ (fun a b hle hne => ?_) ((List.mergeSort_perm stamps _).nodup_iff.2 hnodup)
  exact lt_of_le_of_ne (by simpa using hle) (Ne.symm hne)

/-- What a graph does to the links from a node whose members are set is the loop. -/
theorem removeFrom_eq_drain (hnodup : (links.map Link.stamp).Nodup) (source : NodeId) :
    removeFrom links source = drain links source := by
  unfold removeFrom
  refine foldl_remove_eq_drain hnodup ?_ ((List.mergeSort_perm _ _).trans (List.Perm.of_eq ?_))
  · exact pairwise_gt_mergeSort (hnodup.sublist (List.filter_sublist.map Link.stamp))
  · refine congrArg (List.map Link.stamp) (List.filter_congr fun l _ => ?_)
    rw [Bool.beq_eq_decide_eq]

end Link

/-! ## What is prescribed -/

/-- The links that a shape prescribes, by role and part: one to the items of an array, one to the
values of a map, one for each property of a class and one to each member. -/
def Shape.prescribed : Shape → Multiset (Role × NodeId)
  | .primitive _ | .enum _ => 0
  | .array items => {(.items, items)}
  | .map values => {(.values, values)}
  | .record properties =>
    (properties : Multiset Property).map fun p => (.property p.name, p.target)
  | .combination _ none => 0
  | .combination _ (some members) => (members.toList : Multiset NodeId).map fun m => (.member, m)

/-- Links are made for what a shape prescribes. -/
theorem Shape.coe_parts (shape : Shape) :
    (shape.parts : Multiset (Role × NodeId)) = shape.prescribed := by
  cases shape with
  | combination operation members => cases members <;> rfl
  | primitive | enum | array | map | record => rfl

/-- Members are only asked for where the node is a union or intersection. -/
def Request.IsAdmissible (g : TypeGraph) : Request → Prop
  | .setMembers t _ => ∃ operation members, g.shape? t = some (.combination operation members)
  | _ => True

/-- Elements that are sorted by a number below some bound are all there. -/
theorem flatMap_filter_perm {α : Type} (key : α → Nat) {n : Nat} {xs : List α}
    (h : ∀ x ∈ xs, key x < n) :
    ((List.range n).flatMap fun t => xs.filter fun x => key x = t).Perm xs := by
  induction n generalizing xs with
  | zero =>
    have hnil : xs = [] := List.eq_nil_iff_forall_not_mem.2 fun x hx => Nat.not_lt_zero _ (h x hx)
    rw [hnil]
    rfl
  | succ n ih =>
    have hsmall : ∀ x ∈ xs.filter (fun x => key x ≠ n), key x < n := by
      intro x hx
      rw [List.mem_filter, decide_eq_true_eq] at hx
      have hlt := h x hx.1
      omega
    have hfirst : ((List.range n).flatMap fun t => xs.filter fun x => key x = t) =
        (List.range n).flatMap fun t => (xs.filter fun x => key x ≠ n).filter fun x => key x = t := by
      refine List.flatMap_congr fun t ht => ?_
      rw [List.filter_filter]
      refine List.filter_congr fun x _ => ?_
      have hne := Nat.ne_of_lt (List.mem_range.1 ht)
      by_cases hx : key x = t
      · simp [hx, hne]
      · simp [hx]
    rw [List.range_succ, List.flatMap_append, hfirst, List.flatMap_singleton]
    refine ((ih hsmall).append_right _).trans (List.perm_append_comm.trans ?_)
    simpa using List.filter_append_perm (fun x => decide (key x = n)) xs

namespace TypeGraph

variable {g : TypeGraph}

/-- The links from a node, by role and part. -/
def outgoing (g : TypeGraph) (t : NodeId) : Multiset (Role × NodeId) :=
  (g.linksFrom t : Multiset Link).map fun l => (l.role, l.target)

/-- The numbers of the links from a node. -/
def numbersFrom (g : TypeGraph) (t : NodeId) : List Nat :=
  (List.range g.links.length).filter fun i => g.links[i]?.any fun l => l.source = t

/-- Members are only set for what is a union or intersection by then. -/
def Admits : TypeGraph → List Request → Prop
  | _, [] => True
  | g, r :: rest => r.IsAdmissible g ∧ (g.perform r).2.Admits rest

/-! ## What requests keep -/

/-- Stamps tell links apart after every request, also one that fails. -/
theorem Stamped.perform (hg : g.Stamped) (r : Request) : (g.perform r).2.Stamped :=
  perform_preserves r (fun shape _ => hg.intern shape) (fun _ => hg.allocate _)
    (fun t members _ => hg.replaceMembers t members)
    (fun t attributes _ => hg.addAttributes t attributes)
    fun _ _ => ⟨hg.nodup, hg.lt_linksMade⟩

/-- After an admissible request, the links from each node are again what its shape prescribes. -/
theorem Mirrored.perform (hg : g.Mirrored) (hstamped : g.Stamped) {r : Request}
    (hr : r.IsAdmissible g) : (g.perform r).2.Mirrored := by
  refine perform_preserves r (fun shape _ => hg.intern shape) (fun _ => hg.allocate _)
    (fun t members heq => ?_) (fun t attributes _ => hg.addAttributes t attributes)
    fun _ _ => ⟨hg.parts_perm, hg.source_lt⟩
  subst heq
  obtain ⟨operation, old, ht⟩ := hr
  exact hg.replaceMembers hstamped ht members

theorem Stamped.performAll (hg : g.Stamped) (requests : List Request) :
    (g.performAll requests).Stamped :=
  performAll_preserves (fun _ r h => h.perform r) requests hg

theorem Mirrored.performAll (hg : g.Mirrored) (hstamped : g.Stamped) {requests : List Request}
    (hrequests : g.Admits requests) : (g.performAll requests).Mirrored := by
  induction requests generalizing g with
  | nil => exact hg
  | cons r rest ih =>
    obtain ⟨hr, hrest⟩ := hrequests
    exact ih (hg.perform hstamped hr) (hstamped.perform r) hrest

/-- Setting the members of one node again and again leaves the links from all others. -/
theorem linksFrom_performAll_setMembers_perm (hg : g.Stamped) {t u : NodeId} (hne : u ≠ t)
    (rounds : List (SortedSet NodeId)) :
    ((g.performAll (rounds.map (Request.setMembers t))).linksFrom u).Perm (g.linksFrom u) := by
  induction rounds generalizing g with
  | nil => exact List.Perm.refl _
  | cons members rest ih =>
    have hstep : ((g.perform (.setMembers t members)).2.linksFrom u).Perm (g.linksFrom u) := by
      change ((g.setMembers t members).2.linksFrom u).Perm _
      rw [setMembers_snd]
      exact linksFrom_replaceMembers_perm hg hne members
    exact (ih (hg.perform (.setMembers t members))).trans hstep

/-! ## Counting -/

theorem Mirrored.outgoing_eq (hg : g.Mirrored) {t : NodeId} {shape : Shape}
    (ht : g.shape? t = some shape) : g.outgoing t = shape.prescribed := by
  unfold outgoing
  rw [← Shape.coe_parts, Multiset.map_coe, Multiset.coe_eq_coe]
  exact hg.parts_perm t shape ht

/-- The links from the nodes, taken together, are all links. -/
theorem Mirrored.flatMap_linksFrom_perm (hg : g.Mirrored) :
    ((List.range g.nodes.length).flatMap g.linksFrom).Perm g.links :=
  flatMap_filter_perm Link.source hg.source_lt

/-- Each number below the number of links is that of a link from just one node. -/
theorem Mirrored.flatMap_numbersFrom_perm (hg : g.Mirrored) :
    ((List.range g.nodes.length).flatMap g.numbersFrom).Perm (List.range g.links.length) := by
  have hkey : ∀ i ∈ List.range g.links.length,
      ((g.links[i]?.map Link.source).getD 0) < g.nodes.length := by
    intro i hi
    rw [List.getElem?_eq_getElem (List.mem_range.1 hi)]
    exact hg.source_lt _ (List.getElem_mem _)
  refine (List.Perm.of_eq ?_).trans (flatMap_filter_perm _ hkey)
  refine List.flatMap_congr fun t _ => List.filter_congr fun i hi => ?_
  rw [List.getElem?_eq_getElem (List.mem_range.1 hi)]
  rfl

/-- There are as many links as are prescribed by all nodes together. -/
theorem Mirrored.length_links (hg : g.Mirrored) :
    g.links.length = (g.nodes.map fun n => n.shape.prescribed.card).sum := by
  have hcard : ∀ t, (ht : t < g.nodes.length) →
      (g.linksFrom t).length = g.nodes[t].shape.prescribed.card := by
    intro t ht
    have hshape : g.shape? t = some g.nodes[t].shape := by
      unfold shape?
      rw [List.getElem?_eq_getElem ht]
      rfl
    rw [← hg.outgoing_eq hshape, outgoing, Multiset.card_map, Multiset.coe_card]
  rw [← hg.flatMap_linksFrom_perm.length_eq, List.length_flatMap]
  refine congrArg List.sum (List.ext_getElem (by simp) fun t ht _ => ?_)
  simpa using hcard t (by simpa using ht)

/-! ## Main results -/

/-- As long as members are only set for unions and intersections, the links from each node are those
that its shape prescribes.  So there are as many links as all shapes prescribe together, and the
numbers of the links from the nodes are all numbers below that, each once.  Setting members takes the
latest link from the node away, while there is one, and then adds one to each member.  However often
this is done for one node, all others keep their links.  The nodes in a request are meant to be handles that
the graph has given out before. -/
theorem performAll_mirrors (requests : List Request) (hrequests : empty.Admits requests) :
    let g := empty.performAll requests
    (∀ t shape, g.shape? t = some shape → g.outgoing t = shape.prescribed) ∧
    g.links.length = (g.nodes.map fun n => n.shape.prescribed.card).sum ∧
    ((List.range g.nodes.length).flatMap g.numbersFrom).Perm (List.range g.links.length) ∧
    (∀ t members, (g.setMembers t members).2.links = Link.drain g.links t ++
      Link.toParts t g.linksMade (members.toList.map fun m => (.member, m))) ∧
    ∀ t u (rounds : List (SortedSet NodeId)), u ≠ t →
      ((g.performAll (rounds.map (Request.setMembers t))).linksFrom u).Perm (g.linksFrom u) := by
  intro g
  have hstamped : g.Stamped := Stamped.empty.performAll requests
  have hmirrored : g.Mirrored := Mirrored.empty.performAll .empty hrequests
  refine ⟨fun t shape => hmirrored.outgoing_eq, hmirrored.length_links,
    hmirrored.flatMap_numbersFrom_perm, fun t members => ?_, fun t u rounds hne => ?_⟩
  · rw [setMembers_snd, ← Link.removeFrom_eq_drain hstamped.nodup]
    rfl
  · exact linksFrom_performAll_setMembers_perm hstamped hne rounds

/-- A union that has been its own member, and has been the items of an array since, has another member
in the end.  There is one link to it and one from the array. -/
theorem performAll_mirrors_union :
    let requests := [.declare .union, .primitive .string, .setMembers 0 (.ofList [0, 1]), .array 0,
      .setMembers 0 (.singleton 1)]
    empty.Admits requests ∧ (empty.performAll requests).outgoing 0 = {(.member, 1)} ∧
      (empty.performAll requests).outgoing 2 = {(.items, 0)} ∧
        (empty.performAll requests).links.length = 2 := by
  intro requests
  have hrequests : empty.Admits requests :=
    ⟨trivial, trivial, ⟨_, _, rfl⟩, trivial, ⟨_, _, rfl⟩, trivial⟩
  obtain ⟨houtgoing, hlength, -⟩ := performAll_mirrors requests hrequests
  exact ⟨hrequests, houtgoing 0 _ rfl, houtgoing 2 _ rfl, hlength⟩

end TypeGraph

end ShapeGraph
