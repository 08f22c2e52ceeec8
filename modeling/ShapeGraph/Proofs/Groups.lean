import Mathlib.Data.Nat.Bitwise
import Mathlib.Data.Nat.Find
import Mathlib.Logic.Relation
import ShapeGraph.Graph.Cycles
import ShapeGraph.Proofs.Handles

/-!
# Groups of recursive types

Types that lead to one another through links form a group.  Which nodes lead to which is found by admitting
one more node as a stopover at a time.  A group is listed under the first of its nodes.

## Main definitions

* `TypeGraph.LeadsThrough` — links lead from one node to another, with stopovers below some bound only.
* `TypeGraph.LeadsTo` — links lead from one node to another.
* `TypeGraph.IsFirst` — a node leads to itself, and to and from none before it.

## Main results

* `TypeGraph.leadsThrough_succ_iff` — what one more stopover makes possible.
* `TypeGraph.reaches_reach_iff` — the rows of bits say which node leads to which.
* `TypeGraph.performAll_cycles` — the groups of every graph that has been built.

## Design

A path through one more stopover is a path to this stopover and one from it, both without it: where it is
met last and where it is met first is nothing that has to be found, since paths grow at their ends only.
-/

set_option autoImplicit false

namespace ShapeGraph

namespace TypeGraph

open Relation (TransGen)

variable {g : TypeGraph} {s t u : NodeId} {n : ℕ}

/-! ## Paths with stopovers -/

/-- Some non-empty path of links leads from one node to the other. -/
def LeadsTo (g : TypeGraph) : NodeId → NodeId → Prop := TransGen g.Linked

/-- Some non-empty path of links leads from one node to the other, and all nodes between them are below a
bound. -/
inductive LeadsThrough (g : TypeGraph) (bound : ℕ) : NodeId → NodeId → Prop
  | link {s t : NodeId} (h : g.Linked s t) : LeadsThrough g bound s t
  | tail {s u t : NodeId} (h : LeadsThrough g bound s u) (hstop : u < bound) (hlink : g.Linked u t) :
      LeadsThrough g bound s t

namespace LeadsThrough

theorem mono {k : ℕ} (h : g.LeadsThrough n s t) (hle : n ≤ k) : g.LeadsThrough k s t := by
  induction h with
  | link hlink => exact .link hlink
  | tail _ hstop hlink ih => exact .tail ih (Nat.lt_of_lt_of_le hstop hle) hlink

theorem trans (h : g.LeadsThrough n s u) (hstop : u < n) (h' : g.LeadsThrough n u t) :
    g.LeadsThrough n s t := by
  induction h' with
  | link hlink => exact .tail h hstop hlink
  | tail _ hnext hlink ih => exact .tail ih hnext hlink

end LeadsThrough

/-- One more stopover makes it possible to go there and on from there. -/
theorem leadsThrough_succ_iff : g.LeadsThrough (n + 1) s t ↔
    g.LeadsThrough n s t ∨ g.LeadsThrough n s n ∧ g.LeadsThrough n n t := by
  constructor
  · intro h
    induction h with
    | link hlink => exact Or.inl (.link hlink)
    | @tail u t _ hstop hlink ih =>
      rcases Nat.lt_succ_iff_lt_or_eq.1 hstop with hlt | rfl
      · rcases ih with hdirect | ⟨hthere, hon⟩
        · exact Or.inl (.tail hdirect hlt hlink)
        · exact Or.inr ⟨hthere, .tail hon hlt hlink⟩
      · rcases ih with hthere | ⟨hthere, -⟩
        · exact Or.inr ⟨hthere, .link hlink⟩
        · exact Or.inr ⟨hthere, .link hlink⟩
  · rintro (h | ⟨hthere, hon⟩)
    · exact h.mono (Nat.le_succ n)
    · exact (hthere.mono (Nat.le_succ n)).trans (Nat.lt_succ_self n) (hon.mono (Nat.le_succ n))

/-- When all nodes are stopovers, nothing but the links counts. -/
theorem leadsThrough_length_iff (hg : g.Grounded) :
    g.LeadsThrough g.nodes.length s t ↔ g.LeadsTo s t := by
  constructor
  · intro h
    induction h with
    | link hlink => exact .single hlink
    | tail _ _ hlink ih => exact ih.tail hlink
  · intro h
    induction h with
    | single hlink => exact .link hlink
    | tail _ hlink ih =>
      refine .tail ih ?_ hlink
      obtain ⟨l, hl, rfl, -⟩ := hlink
      exact hg.source_lt l hl

/-! ## Rows of bits -/

/-- Setting the bits of some numbers sets no other bits. -/
theorem testBit_foldl_setBit (links : List Link) (row : ℕ) (t : NodeId) :
    (links.foldl (fun row l => row ||| 1 <<< l.target) row).testBit t =
      (row.testBit t || links.any fun l => l.target == t) := by
  induction links generalizing row with
  | nil => simp
  | cons l rest ih =>
    rw [List.foldl_cons, ih, Nat.testBit_or, Nat.one_shiftLeft, Nat.testBit_two_pow, List.any_cons,
      Bool.or_assoc, Bool.beq_eq_decide_eq]

/-- The bits of a node are those of the nodes that it has links to. -/
theorem testBit_successors (g : TypeGraph) (s t : NodeId) :
    (g.successors s).testBit t = true ↔ g.Linked s t := by
  unfold successors
  rw [testBit_foldl_setBit, Nat.zero_testBit, Bool.false_or, List.any_eq_true]
  constructor
  · rintro ⟨l, hl, htarget⟩
    obtain ⟨hmem, hsource⟩ := List.mem_filter.1 hl
    exact ⟨l, hmem, by simpa using hsource, by simpa using htarget⟩
  · rintro ⟨l, hl, hsource, htarget⟩
    exact ⟨l, List.mem_filter.2 ⟨hl, by simpa using hsource⟩, by simpa using htarget⟩

/-- Before the first stopover is admitted, the rows say which nodes have links to which. -/
theorem reaches_successors_iff (hg : g.Grounded) :
    reaches ((List.range g.nodes.length).map g.successors).toArray s t = true ↔ g.Linked s t := by
  unfold reaches
  rw [List.getElem?_toArray, List.getElem?_map]
  rcases Nat.lt_or_ge s g.nodes.length with hlt | hge
  · rw [List.getElem?_range hlt]
    exact testBit_successors g s t
  · rw [List.getElem?_eq_none (by simpa using hge)]
    refine iff_of_false (by simp) ?_
    rintro ⟨l, hl, rfl, -⟩
    exact absurd (hg.source_lt l hl) (Nat.not_lt.2 hge)

/-- Admitting a stopover adds what can be reached over it. -/
theorem reaches_addStop (rows : Array ℕ) (stop s t : NodeId) : reaches (addStop rows stop) s t =
    (reaches rows s t || reaches rows s stop && reaches rows stop t) := by
  unfold reaches addStop
  rw [Array.getElem?_map]
  cases rows[s]? with
  | none => simp
  | some row =>
    simp only [Option.map_some, Option.getD_some]
    split
    · next hstop => rw [Nat.testBit_or, hstop, Bool.true_and]
    · next hstop => simp [hstop]

/-- After the stopovers below a bound have been admitted, the rows say which node leads to which through
them.

**Proof sketch.** Induction on the bound: what the next stopover makes possible is what admitting it adds
to the rows. -/
theorem reaches_foldl_addStop_iff (hg : g.Grounded) (n : ℕ) :
    reaches ((List.range n).foldl addStop ((List.range g.nodes.length).map g.successors).toArray) s t
      = true ↔ g.LeadsThrough n s t := by
  induction n generalizing s t with
  | zero =>
    rw [List.range_zero, List.foldl_nil, reaches_successors_iff hg]
    constructor
    · exact .link
    · intro h
      cases h with
      | link hlink => exact hlink
      | tail _ hstop => exact absurd hstop (Nat.not_lt_zero _)
  | succ n ih =>
    rw [List.range_succ, List.foldl_append, List.foldl_cons, List.foldl_nil, reaches_addStop,
      leadsThrough_succ_iff, Bool.or_eq_true, Bool.and_eq_true, ih, ih, ih]

/-- The rows of bits say which node leads to which. -/
theorem reaches_reach_iff (hg : g.Grounded) : reaches g.reach s t = true ↔ g.LeadsTo s t :=
  (reaches_foldl_addStop_iff hg g.nodes.length).trans (leadsThrough_length_iff hg)

/-! ## Groups -/

/-- Whether two nodes lead to one another, by the rows of bits. -/
def together (g : TypeGraph) (s t : NodeId) : Bool := reaches g.reach s t && reaches g.reach t s

/-- The node leads to itself, and to and from none before it. -/
def IsFirst (g : TypeGraph) (s : NodeId) : Prop :=
  g.together s s = true ∧ ∀ u < s, g.together s u = false

/-- The nodes that a node leads to and from. -/
def groupOf (g : TypeGraph) (s : NodeId) : List NodeId :=
  (List.range g.nodes.length).filter (g.together s)

section Together

variable (hg : g.Grounded)

include hg

theorem together_iff : g.together s t = true ↔ g.LeadsTo s t ∧ g.LeadsTo t s := by
  rw [together, Bool.and_eq_true, reaches_reach_iff hg, reaches_reach_iff hg]

theorem together_symm (h : g.together s t = true) : g.together t s = true :=
  (together_iff hg).2 ((together_iff hg).1 h).symm

theorem together_trans (h : g.together s t = true) (h' : g.together t u = true) :
    g.together s u = true := by
  rw [together_iff hg] at h h' ⊢
  exact ⟨h.1.trans h'.1, h'.2.trans h.2⟩

/-- Only nodes of the graph lead anywhere. -/
theorem lt_length_of_together (h : g.together s t = true) : s < g.nodes.length := by
  obtain ⟨next, ⟨l, hl, rfl, -⟩, -⟩ := TransGen.head'_iff.1 ((together_iff hg).1 h).1
  exact hg.source_lt l hl

theorem mem_groupOf_iff : t ∈ g.groupOf s ↔ g.together s t = true := by
  unfold groupOf
  rw [List.mem_filter, List.mem_range]
  exact and_iff_right_of_imp fun h => lt_length_of_together hg (together_symm hg h)

/-- Among the nodes of a group there is a first one. -/
theorem exists_isFirst (h : g.together t t = true) : ∃ s, g.IsFirst s ∧ g.together s t = true := by
  have hexists : ∃ s, g.together t s = true := ⟨t, h⟩
  have hts := Nat.find_spec hexists
  have hst := together_symm hg hts
  refine ⟨Nat.find hexists, ⟨together_trans hg hst hts, fun u hu => ?_⟩, hst⟩
  rw [← Bool.not_eq_true]
  exact fun hsu => Nat.find_min hexists hu (together_trans hg hts hsu)

/-- Where a group is listed, its first node comes first. -/
theorem exists_groupOf_eq_cons (h : g.IsFirst s) : ∃ rest, g.groupOf s = s :: rest := by
  obtain ⟨k, hk⟩ := Nat.exists_eq_add_of_lt (lt_length_of_together hg h.1)
  have hbefore : (List.range s).filter (g.together s) = [] := by
    refine List.filter_eq_nil_iff.2 fun u hu => ?_
    simp [h.2 u (List.mem_range.1 hu)]
  unfold groupOf
  rw [hk, Nat.add_assoc, List.range_add, List.filter_append, hbefore, List.nil_append,
    List.range_succ_eq_map, List.map_cons, Nat.add_zero, List.filter_cons_of_pos h.1]
  exact ⟨_, rfl⟩

end Together

/-- The group that is listed under a node, if it is the first of one. -/
def groupAt? (g : TypeGraph) (s : NodeId) : Option (List NodeId) :=
  if reaches g.reach s s && !(List.range s).any (g.together s) then some (g.groupOf s) else none

theorem cycles_eq (g : TypeGraph) : g.cycles = (List.range g.nodes.length).filterMap g.groupAt? := rfl

theorem groupAt?_eq_some_iff {group : List NodeId} :
    g.groupAt? s = some group ↔ g.IsFirst s ∧ group = g.groupOf s := by
  have hnone : (!(List.range s).any (g.together s)) = true ↔ ∀ u < s, g.together s u = false := by
    simp only [Bool.not_eq_true', List.any_eq_false, List.mem_range, Bool.not_eq_true]
  unfold groupAt? IsFirst
  rw [Option.ite_none_right_eq_some, Bool.and_eq_true, hnone, Option.some.injEq,
    eq_comm (a := g.groupOf s), together, Bool.and_self]

/-- Each group is listed under its first node. -/
theorem mem_cycles_iff (hg : g.Grounded) {group : List NodeId} :
    group ∈ g.cycles ↔ ∃ s, g.IsFirst s ∧ group = g.groupOf s := by
  rw [cycles_eq, List.mem_filterMap]
  constructor
  · rintro ⟨s, -, hgroup⟩
    exact ⟨s, groupAt?_eq_some_iff.1 hgroup⟩
  · rintro ⟨s, hfirst, hgroup⟩
    exact ⟨s, List.mem_range.2 (lt_length_of_together hg hfirst.1),
      groupAt?_eq_some_iff.2 ⟨hfirst, hgroup⟩⟩

/-- What holds of the groups of any two first nodes holds of any two groups, in the order in which they are
listed. -/
theorem pairwise_cycles {rel : List NodeId → List NodeId → Prop}
    (h : ∀ s t, s < t → g.IsFirst s → g.IsFirst t → rel (g.groupOf s) (g.groupOf t)) :
    g.cycles.Pairwise rel := by
  rw [cycles_eq, List.pairwise_filterMap]
  refine List.pairwise_lt_range.imp fun {s t} hst group hgroup other hother => ?_
  obtain ⟨hs, rfl⟩ := groupAt?_eq_some_iff.1 hgroup
  obtain ⟨ht, rfl⟩ := groupAt?_eq_some_iff.1 hother
  exact h s t hst hs ht

/-! ## Main results -/

section Grounded

variable (hg : g.Grounded)

include hg

/-- Two nodes are listed in one group just in case they lead to one another. -/
theorem exists_group_iff :
    (∃ group ∈ g.cycles, s ∈ group ∧ t ∈ group) ↔ g.LeadsTo s t ∧ g.LeadsTo t s := by
  rw [← together_iff hg]
  constructor
  · rintro ⟨group, hgroup, hs, ht⟩
    obtain ⟨first, -, rfl⟩ := (mem_cycles_iff hg).1 hgroup
    rw [mem_groupOf_iff hg] at hs ht
    exact together_trans hg (together_symm hg hs) ht
  · intro hst
    obtain ⟨first, hfirst, hs⟩ :=
      exists_isFirst hg (together_trans hg hst (together_symm hg hst))
    exact ⟨_, (mem_cycles_iff hg).2 ⟨first, hfirst, rfl⟩, (mem_groupOf_iff hg).2 hs,
      (mem_groupOf_iff hg).2 (together_trans hg hs hst)⟩

/-- A group is not empty, and its nodes ascend. -/
theorem pairwise_group {group : List NodeId} (hgroup : group ∈ g.cycles) :
    group ≠ [] ∧ group.Pairwise (· < ·) := by
  obtain ⟨first, hfirst, rfl⟩ := (mem_cycles_iff hg).1 hgroup
  obtain ⟨rest, hcons⟩ := exists_groupOf_eq_cons hg hfirst
  exact ⟨by simp [hcons], List.pairwise_lt_range.filter _⟩

/-- No node is listed twice. -/
theorem nodup_cycles : g.cycles.flatten.Nodup := by
  rw [List.nodup_flatten]
  refine ⟨fun group hgroup => (pairwise_group hg hgroup).2.imp fun h => Nat.ne_of_lt h, ?_⟩
  refine pairwise_cycles fun s t hst hs ht u hu hu' => ?_
  rw [mem_groupOf_iff hg] at hu hu'
  have htogether := together_trans hg hu' (together_symm hg hu)
  rw [ht.2 s hst] at htogether
  cases htogether

/-- The groups ascend. -/
theorem pairwise_lt_cycles : g.cycles.Pairwise (· < ·) := by
  refine pairwise_cycles fun s t hst hs ht => ?_
  obtain ⟨rest, hcons⟩ := exists_groupOf_eq_cons hg hs
  obtain ⟨rest', hcons'⟩ := exists_groupOf_eq_cons hg ht
  rw [hcons, hcons']
  exact List.Lex.rel hst

end Grounded

/-- In every graph that has been built: a node is listed in a group just in case a non-empty path of links
leads from it to itself, and two nodes in the same group just in case such paths lead from each to the
other.  No node is listed twice, groups are not empty, and both the nodes of a group and the groups
ascend. -/
theorem performAll_cycles (requests : List Request) (hrequests : LinksAnswers requests) :
    let g := empty.performAll requests
    (∀ t, (∃ group ∈ g.cycles, t ∈ group) ↔ g.LeadsTo t t) ∧
    (∀ s t, (∃ group ∈ g.cycles, s ∈ group ∧ t ∈ group) ↔ g.LeadsTo s t ∧ g.LeadsTo t s) ∧
    g.cycles.flatten.Nodup ∧
    (∀ group ∈ g.cycles, group ≠ [] ∧ group.Pairwise (· < ·)) ∧
    g.cycles.Pairwise (· < ·) := by
  intro g
  have hg : g.Grounded := grounded_performAll hrequests
  refine ⟨fun t => ?_, fun s t => exists_group_iff hg, nodup_cycles hg,
    fun group => pairwise_group hg, pairwise_lt_cycles hg⟩
  simpa only [and_self] using exists_group_iff hg (s := t) (t := t)

/-- A class that has a union as a property of which it is a member, beside an intersection that is its own
member and is the items of an array: two groups, and the array is in neither. -/
theorem performAll_cycles_class :
    let requests := [.declare .union, .record [⟨"next", 0, true⟩], .setMembers 0 (.singleton 1),
      .declare .intersection, .setMembers 2 (.singleton 2), .array 2]
    let g := empty.performAll requests
    LinksAnswers requests ∧ g.cycles = [[0, 1], [2]] ∧ (g.LeadsTo 0 1 ∧ g.LeadsTo 1 0) ∧
      ¬ g.LeadsTo 3 3 := by
  intro requests g
  have hrequests : LinksAnswers requests := by decide
  have hcycles : g.cycles = [[0, 1], [2]] := by decide +kernel
  obtain ⟨hone, htwo, -⟩ := performAll_cycles requests hrequests
  refine ⟨hrequests, hcycles, (htwo 0 1).1 ⟨[0, 1], ?_⟩, fun h => ?_⟩
  · show [0, 1] ∈ g.cycles ∧ 0 ∈ [0, 1] ∧ 1 ∈ [0, 1]
    simp [hcycles]
  · obtain ⟨group, hgroup, hmem⟩ := (hone 3).2 h
    change group ∈ g.cycles at hgroup
    rw [hcycles] at hgroup
    rcases List.mem_cons.1 hgroup with rfl | hrest
    · simp at hmem
    · obtain rfl := List.mem_singleton.1 hrest
      simp at hmem

end TypeGraph

end ShapeGraph
