import Mathlib.Data.List.Nodup
import ShapeGraph.Proofs.Growth

/-!
# The links of type graphs

Links are kept in one list.  Removing one moves the last link into its place, and the links of a node
are removed one by one before those to its members are added.  What stays is the links of every other
node: with the same parts, roles and stamps, although perhaps with other numbers.

## Main definitions

* `TypeGraph.linksFrom` — the links from a node.
* `TypeGraph.Stamped` — stamps tell links apart.
* `TypeGraph.Mirrored` — the links from a node lead to the parts of its shape.

## Main results

* `perm_swapRemove` — an element that is removed is the only one that is lost.
* `TypeGraph.Stamped.removeFrom_perm` — removing the links from a node leaves all others.
* `TypeGraph.linksFrom_replaceMembers_perm` — setting members leaves the links from other nodes.
* `TypeGraph.Mirrored.allocate`, `TypeGraph.Mirrored.replaceMembers` — links repeat what shapes say.
-/

set_option autoImplicit false

namespace ShapeGraph

/-! ## Removing links -/

/-- The element that is removed is the only one that is lost. -/
theorem perm_swapRemove {α : Type} {l : List α} {i : Nat} (hi : i < l.length) :
    (l[i] :: swapRemove l i).Perm l := by
  rcases List.eq_nil_or_concat' l with rfl | ⟨front, last, rfl⟩
  · cases hi
  have hlast : swapRemove (front ++ [last]) i = ((front ++ [last]).set i last).dropLast := by
    simp [swapRemove]
  rw [hlast]
  rcases Nat.lt_or_ge i front.length with hlt | hge
  · -- The last element takes the place of the one that is removed.
    have hsplit : front.take i ++ front[i] :: front.drop (i + 1) = front := by
      rw [List.getElem_cons_drop, List.take_append_drop]
    have hremoved : (front[i] :: (front.take i ++ front.drop (i + 1))).Perm front := by
      conv => rhs; rw [← hsplit]
      exact List.perm_middle.symm
    rw [List.set_append_left i last hlt, List.dropLast_concat, List.getElem_append_left hlt,
      List.set_eq_take_append_cons_drop, if_pos hlt]
    refine (List.perm_middle.cons front[i]).trans ((List.Perm.swap last front[i] _).trans ?_)
    exact (hremoved.cons last).trans (List.perm_append_singleton last front).symm
  · obtain rfl : i = front.length := by
      rw [List.length_append, List.length_singleton] at hi
      omega
    simpa using (List.perm_append_singleton last front).symm

namespace Link

variable {links : List Link}

/-- Removing the link with a stamp leaves the links with other stamps. -/
theorem remove_perm (hnodup : (links.map Link.stamp).Nodup) (stamp : Nat) :
    (remove links stamp).Perm (links.filter fun l => l.stamp ≠ stamp) := by
  unfold remove
  cases hfind : links.findIdx? (·.stamp == stamp) with
  | none =>
    rw [List.findIdx?_eq_none_iff] at hfind
    rw [List.filter_eq_self.2 fun l hl => by simpa using hfind l hl]
  | some i =>
    obtain ⟨hi, hstamp, -⟩ := List.findIdx?_eq_some_iff_getElem.1 hfind
    have hstamp : links[i].stamp = stamp := by simpa using hstamp
    have hperm := perm_swapRemove hi
    -- No other link has the stamp of the one that is removed.
    have hothers : ∀ l ∈ swapRemove links i, l.stamp ≠ stamp := by
      have hmoved := (hperm.map Link.stamp).nodup_iff.2 hnodup
      rw [List.map_cons, List.nodup_cons, hstamp] at hmoved
      intro l hl heq
      exact hmoved.1 (heq ▸ List.mem_map_of_mem hl)
    have hfilter := hperm.filter fun l => decide (l.stamp ≠ stamp)
    rw [List.filter_cons_of_neg (by simp [hstamp]),
      List.filter_eq_self.2 fun l hl => by simpa using hothers l hl] at hfilter
    exact hfilter

/-- Stamps still tell links apart after one has been removed. -/
theorem nodup_remove (hnodup : (links.map Link.stamp).Nodup) (stamp : Nat) :
    ((remove links stamp).map Link.stamp).Nodup := by
  refine ((remove_perm hnodup stamp).map Link.stamp).nodup_iff.2 (hnodup.sublist ?_)
  exact List.filter_sublist.map Link.stamp

/-- Removing links by their stamps leaves the links with other stamps. -/
theorem foldl_remove_perm (stamps : List Nat) (hnodup : (links.map Link.stamp).Nodup) :
    (stamps.foldl remove links).Perm (links.filter fun l => l.stamp ∉ stamps) := by
  induction stamps generalizing links with
  | nil => simp
  | cons stamp rest ih =>
    have hfirst := remove_perm hnodup stamp
    refine (ih (nodup_remove hnodup stamp)).trans ((hfirst.filter _).trans ?_)
    rw [List.filter_filter]
    refine List.Perm.of_eq (List.filter_congr fun l _ => ?_)
    simp [Bool.and_comm]

/-- Removing the links from a node leaves those from other nodes. -/
theorem removeFrom_perm (hnodup : (links.map Link.stamp).Nodup) (source : NodeId) :
    (removeFrom links source).Perm (links.filter fun l => l.source ≠ source) := by
  refine (foldl_remove_perm _ hnodup).trans (List.Perm.of_eq (List.filter_congr fun l hl => ?_))
  rw [decide_eq_decide, List.mem_mergeSort, List.mem_map]
  constructor
  · intro hstamp hsource
    exact hstamp ⟨l, List.mem_filter.2 ⟨hl, by simpa using hsource⟩, rfl⟩
  · rintro hsource ⟨other, hother, hstamp⟩
    obtain ⟨hmem, hfrom⟩ := List.mem_filter.1 hother
    obtain rfl := List.inj_on_of_nodup_map hnodup hmem hl hstamp
    exact hsource (by simpa using hfrom)

/-! ## Making links -/

/-- New links are stamped one after another. -/
theorem map_stamp_toParts (source : NodeId) (made : Nat) (parts : List (Role × NodeId)) :
    (toParts source made parts).map Link.stamp = List.range' made parts.length := by
  refine List.ext_getElem (by simp [toParts]) fun i _ _ => ?_
  simp [toParts]

/-- What new links lead to. -/
theorem map_part_toParts (source : NodeId) (made : Nat) (parts : List (Role × NodeId)) :
    (toParts source made parts).map (fun l => (l.role, l.target)) = parts := by
  refine List.ext_getElem (by simp [toParts]) fun i _ _ => ?_
  simp [toParts]

theorem source_of_mem_toParts {source : NodeId} {made : Nat} {parts : List (Role × NodeId)}
    {l : Link} (h : l ∈ toParts source made parts) : l.source = source := by
  obtain ⟨i, hi, rfl⟩ := List.mem_iff_getElem.1 h
  simp [toParts]

theorem stamp_of_mem_toParts {source : NodeId} {made : Nat} {parts : List (Role × NodeId)}
    {l : Link} (h : l ∈ toParts source made parts) :
    made ≤ l.stamp ∧ l.stamp < made + parts.length := by
  have hstamp : l.stamp ∈ List.range' made parts.length := by
    rw [← map_stamp_toParts source]
    exact List.mem_map_of_mem h
  simpa using hstamp

end Link

namespace TypeGraph

variable {g : TypeGraph}

/-! ## Links of a graph -/

/-- The links from a node. -/
def linksFrom (g : TypeGraph) (t : NodeId) : List Link := g.links.filter fun l => l.source = t

/-- Stamps tell links apart, and those of links still to come are larger. -/
structure Stamped (g : TypeGraph) : Prop where
  nodup : (g.links.map Link.stamp).Nodup
  lt_linksMade : ∀ l ∈ g.links, l.stamp < g.linksMade

/-- The links from a node lead to the parts of its shape, and each link is that of a node. -/
structure Mirrored (g : TypeGraph) : Prop where
  parts_perm : ∀ t shape, g.shape? t = some shape →
    ((g.linksFrom t).map fun l => (l.role, l.target)).Perm shape.parts
  source_lt : ∀ l ∈ g.links, l.source < g.nodes.length

theorem linksFrom_addLinks (g : TypeGraph) (source t : NodeId) (parts : List (Role × NodeId)) :
    (g.addLinks source parts).linksFrom t =
      g.linksFrom t ++ if t = source then Link.toParts source g.linksMade parts else [] := by
  unfold linksFrom addLinks
  rw [List.filter_append]
  congr 1
  split
  · next h =>
    subst h
    exact List.filter_eq_self.2 fun l hl => by simpa using Link.source_of_mem_toParts hl
  · next h =>
    refine List.filter_eq_nil_iff.2 fun l hl => ?_
    rw [Link.source_of_mem_toParts hl]
    simpa using Ne.symm h

/-- A new node leaves the links of all others. -/
theorem linksFrom_allocate {t : NodeId} (ht : t ≠ g.nodes.length) (shape : Shape) :
    (g.allocate shape).2.linksFrom t = g.linksFrom t := by
  unfold allocate
  rw [linksFrom_addLinks, if_neg ht, List.append_nil]
  rfl

/-- Asking for a shape leaves the links of all nodes that there are. -/
theorem linksFrom_intern {t : NodeId} (ht : t < g.nodes.length) (shape : Shape) :
    (g.intern shape).2.linksFrom t = g.linksFrom t := by
  unfold intern
  split
  · rfl
  · exact linksFrom_allocate (Nat.ne_of_lt ht) shape

theorem links_addAttributes (g : TypeGraph) (t : NodeId) (attributes : Attributes) :
    (g.addAttributes t attributes).links = g.links := by
  unfold addAttributes
  split <;> rfl

theorem linksMade_addAttributes (g : TypeGraph) (t : NodeId) (attributes : Attributes) :
    (g.addAttributes t attributes).linksMade = g.linksMade := by
  unfold addAttributes
  split <;> rfl

theorem linksFrom_addAttributes (g : TypeGraph) (t u : NodeId) (attributes : Attributes) :
    (g.addAttributes t attributes).linksFrom u = g.linksFrom u := by
  unfold linksFrom
  rw [links_addAttributes]

/-- Setting the members of one node leaves the links of all others. -/
theorem linksFrom_replaceMembers_perm (hg : g.Stamped) {t u : NodeId} (hne : u ≠ t)
    (members : SortedSet NodeId) :
    ((g.replaceMembers t members).linksFrom u).Perm (g.linksFrom u) := by
  have hlinks : (g.replaceMembers t members).linksFrom u =
      (addLinks { g with links := Link.removeFrom g.links t } t
        (members.toList.map fun m => (.member, m))).linksFrom u := rfl
  rw [hlinks, linksFrom_addLinks, if_neg hne, List.append_nil]
  refine ((Link.removeFrom_perm hg.nodup t).filter _).trans (List.Perm.of_eq ?_)
  rw [List.filter_filter]
  refine List.filter_congr fun l _ => ?_
  by_cases hl : l.source = u
  · simp [hl, hne]
  · simp [hl]

/-- The node whose members are set has links to them. -/
theorem linksFrom_replaceMembers_self (hg : g.Stamped) (t : NodeId) (members : SortedSet NodeId) :
    (g.replaceMembers t members).linksFrom t =
      Link.toParts t g.linksMade (members.toList.map fun m => (.member, m)) := by
  have hlinks : (g.replaceMembers t members).linksFrom t =
      (addLinks { g with links := Link.removeFrom g.links t } t
        (members.toList.map fun m => (.member, m))).linksFrom t := rfl
  have hremoved : linksFrom { g with links := Link.removeFrom g.links t } t = [] := by
    refine List.filter_eq_nil_iff.2 fun l hl => ?_
    have hmem := (Link.removeFrom_perm hg.nodup t).mem_iff.1 hl
    simpa using (List.mem_filter.1 hmem).2
  rw [hlinks, linksFrom_addLinks, if_pos rfl, hremoved, List.nil_append]

/-! ## Stamps -/

namespace Stamped

theorem empty : Stamped .empty := ⟨List.nodup_nil, by simp [TypeGraph.empty]⟩

theorem addLinks (hg : g.Stamped) (source : NodeId) (parts : List (Role × NodeId)) :
    (g.addLinks source parts).Stamped := by
  constructor
  · unfold TypeGraph.addLinks
    rw [List.map_append, Link.map_stamp_toParts]
    refine List.Nodup.append hg.nodup List.nodup_range' fun stamp hold hnew => ?_
    obtain ⟨l, hl, rfl⟩ := List.mem_map.1 hold
    have hlt := hg.lt_linksMade l hl
    rw [List.mem_range'_1] at hnew
    omega
  · intro l hl
    rcases List.mem_append.1 hl with hl | hl
    · exact Nat.lt_add_right _ (hg.lt_linksMade l hl)
    · exact (Link.stamp_of_mem_toParts hl).2

theorem allocate (hg : g.Stamped) (shape : Shape) : (g.allocate shape).2.Stamped :=
  addLinks (g := { g with nodes := g.nodes ++ [⟨shape, .empty⟩] }) ⟨hg.nodup, hg.lt_linksMade⟩ _ _

theorem intern (hg : g.Stamped) (shape : Shape) : (g.intern shape).2.Stamped := by
  unfold TypeGraph.intern
  split
  · exact hg
  · exact ⟨(hg.allocate shape).nodup, (hg.allocate shape).lt_linksMade⟩

theorem replaceMembers (hg : g.Stamped) (t : NodeId) (members : SortedSet NodeId) :
    (g.replaceMembers t members).Stamped := by
  have hperm := Link.removeFrom_perm hg.nodup t
  have hremoved : Stamped { g with links := Link.removeFrom g.links t } := by
    constructor
    · refine (hperm.map Link.stamp).nodup_iff.2 (hg.nodup.sublist ?_)
      exact List.filter_sublist.map Link.stamp
    · intro l hl
      exact hg.lt_linksMade l (List.mem_filter.1 (hperm.mem_iff.1 hl)).1
  have hadded := hremoved.addLinks t (members.toList.map fun m => (.member, m))
  exact ⟨hadded.nodup, hadded.lt_linksMade⟩

theorem addAttributes (hg : g.Stamped) (t : NodeId) (attributes : Attributes) :
    (g.addAttributes t attributes).Stamped := by
  constructor
  · rw [links_addAttributes]
    exact hg.nodup
  · rw [links_addAttributes, linksMade_addAttributes]
    exact hg.lt_linksMade

end Stamped

/-! ## Links and shapes -/

namespace Mirrored

theorem empty : Mirrored .empty :=
  ⟨by simp [TypeGraph.empty, shape?], by simp [TypeGraph.empty]⟩

theorem allocate (hg : g.Mirrored) (shape : Shape) : (g.allocate shape).2.Mirrored := by
  constructor
  · intro t other ht
    rw [shape?_allocate] at ht
    split at ht
    · next heq =>
      subst heq
      cases ht
      -- Before the node was made, there was no link from it.
      have hnone : g.linksFrom g.nodes.length = [] := by
        refine List.filter_eq_nil_iff.2 fun l hl => ?_
        simpa using Nat.ne_of_lt (hg.source_lt l hl)
      have hlinks : (g.allocate shape).2.linksFrom g.nodes.length =
          Link.toParts g.nodes.length g.linksMade shape.parts := by
        unfold TypeGraph.allocate
        rw [linksFrom_addLinks, if_pos rfl]
        exact congrArg (· ++ _) hnone
      rw [hlinks, Link.map_part_toParts]
    · next hne =>
      rw [linksFrom_allocate hne]
      exact hg.parts_perm t other ht
  · intro l hl
    have hlength : (g.allocate shape).2.nodes.length = g.nodes.length + 1 := by
      simp [TypeGraph.allocate, TypeGraph.addLinks]
    rw [hlength]
    rcases List.mem_append.1 hl with hl | hl
    · exact Nat.lt_succ_of_lt (hg.source_lt l hl)
    · rw [Link.source_of_mem_toParts hl]
      exact Nat.lt_succ_self _

theorem intern (hg : g.Mirrored) (shape : Shape) : (g.intern shape).2.Mirrored := by
  unfold TypeGraph.intern
  split
  · exact hg
  · exact ⟨(hg.allocate shape).parts_perm, (hg.allocate shape).source_lt⟩

theorem addAttributes (hg : g.Mirrored) (t : NodeId) (attributes : Attributes) :
    (g.addAttributes t attributes).Mirrored := by
  constructor
  · intro u shape hu
    rw [shape?_addAttributes] at hu
    rw [linksFrom_addAttributes]
    exact hg.parts_perm u shape hu
  · intro l hl
    rw [links_addAttributes] at hl
    rw [length_addAttributes]
    exact hg.source_lt l hl

/-- The members of a union or intersection are what its links lead to once they are set. -/
theorem replaceMembers (hg : g.Mirrored) (hstamped : g.Stamped) {t : NodeId}
    {operation : Operation} {old : Option (SortedSet NodeId)}
    (ht : g.shape? t = some (.combination operation old)) (members : SortedSet NodeId) :
    (g.replaceMembers t members).Mirrored := by
  constructor
  · intro u shape hu
    by_cases hne : u = t
    · subst hne
      rw [shape?_replaceMembers_self ht] at hu
      cases hu
      rw [linksFrom_replaceMembers_self hstamped, Link.map_part_toParts]
      rfl
    · rw [shape?_replaceMembers_of_ne g hne] at hu
      exact ((linksFrom_replaceMembers_perm hstamped hne members).map _).trans
        (hg.parts_perm u shape hu)
  · intro l hl
    rw [length_replaceMembers]
    rcases List.mem_append.1 hl with hl | hl
    · have hmem := (Link.removeFrom_perm hstamped.nodup t).mem_iff.1 hl
      exact hg.source_lt l (List.mem_filter.1 hmem).1
    · rw [Link.source_of_mem_toParts hl]
      exact lt_length_of_shape? ht

end Mirrored

end TypeGraph

end ShapeGraph
