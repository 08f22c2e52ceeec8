import Mathlib.Logic.Relation
import ShapeGraph.Graph.View
import ShapeGraph.Proofs.Handles

/-!
# Looking through combinations of a single member

A union or intersection of just one member stands for this member.  From such a node a chain leads to its
member, to the member of that, and so on.  The chain may end, at a node that is no such combination, or it
may come back to where it has been.  In either case there is one node that the chain settles at: its end,
or the first of its nodes that it comes back to.

## Main definitions

* `TypeGraph.Wraps` — one node is a union or intersection with the other as its only member.
* `TypeGraph.LooksThrough` — the loop that looks through such nodes, as a relation.
* `TypeGraph.chain` — the nodes that are looked through, one after the other.

## Main results

* `TypeGraph.looksThrough_resolved` — the loop ends, and with the node that is found.
* `TypeGraph.LooksThrough.settles` — what it ends with is the end of the chain, or lies on a cycle.
* `TypeGraph.LooksThrough.exists_repetition` — on a chain without end it stops at the first repetition.
* `TypeGraph.performAll_resolved` — what follows for every node of a graph that has been built.

## Design

The loop remembers the nodes that it has come by.  These are different nodes of the graph, so the number
of nodes bounds its rounds.  That is all that the graph has to be finite for: the rest follows from the
chain being determined by its first node.
-/

set_option autoImplicit false

namespace ShapeGraph

namespace TypeGraph

open Relation (ReflTransGen TransGen)

variable {g : TypeGraph} {t u m r e : NodeId} {visited : List NodeId}

/-! ## Single members -/

/-- The node is a union or intersection that has got just one member, the other node. -/
def Wraps (g : TypeGraph) (t m : NodeId) : Prop :=
  ∃ operation, g.shape? t = some (.combination operation (some (.singleton m)))

theorem wraps_iff : g.Wraps t m ↔ g.onlyMember? t = some m := by
  constructor
  · rintro ⟨operation, hshape⟩
    simp [onlyMember?, members?, hshape, Shape.members?, SortedSet.only?, SortedSet.singleton]
  · intro h
    obtain ⟨members, hmembers, honly⟩ := Option.bind_eq_some_iff.1 h
    obtain ⟨shape, hshape, hset⟩ := Option.bind_eq_some_iff.1 hmembers
    cases shape with
    | combination operation set =>
      cases hset
      refine ⟨operation, ?_⟩
      unfold SortedSet.only? at honly
      split at honly
      · next only heq =>
        cases honly
        rw [hshape, SortedSet.ext (t := .singleton m) heq]
      · cases honly
    | primitive _ | enum _ | array _ | map _ | record _ => cases hset

theorem not_wraps_iff : (∀ m, ¬ g.Wraps t m) ↔ g.onlyMember? t = none := by
  simp only [wraps_iff, Option.eq_none_iff_forall_ne_some]

/-- A node has at most one single member. -/
theorem rightUnique_wraps (g : TypeGraph) : Relator.RightUnique g.Wraps := by
  intro t m m' hm hm'
  rw [wraps_iff] at hm hm'
  exact Option.some.inj (hm.symm.trans hm')

/-- Only nodes of the graph have a single member. -/
theorem Wraps.lt_length (h : g.Wraps t m) : t < g.nodes.length := by
  obtain ⟨operation, hshape⟩ := h
  exact lt_length_of_shape? hshape

/-- The single member of a node of a grounded graph is a node, too. -/
theorem Wraps.member_lt (hg : g.Grounded) (h : g.Wraps t m) : m < g.nodes.length := by
  obtain ⟨operation, hshape⟩ := h
  exact hg.part_lt t _ hshape (.member, m) (by simp [Shape.parts, SortedSet.singleton])

/-! ## The loop -/

/-- How the loop goes on from a node when it remembers some nodes, and which node it ends with: it ends
at a node that it remembers, and at one that has no single member; otherwise it remembers the node and goes
on to its member. -/
inductive LooksThrough (g : TypeGraph) : List NodeId → NodeId → NodeId → Prop
  | again {visited : List NodeId} {t : NodeId} (h : t ∈ visited) : LooksThrough g visited t t
  | ends {visited : List NodeId} {t : NodeId} (hnew : t ∉ visited) (h : ∀ m, ¬ g.Wraps t m) :
      LooksThrough g visited t t
  | goesOn {visited : List NodeId} {t m r : NodeId} (hnew : t ∉ visited) (h : g.Wraps t m)
      (hrest : LooksThrough g (t :: visited) m r) : LooksThrough g visited t r

/-- The loop ends with one node only. -/
theorem LooksThrough.unique {r' : NodeId} (h : g.LooksThrough visited t r)
    (h' : g.LooksThrough visited t r') : r = r' := by
  induction h with
  | again hmem =>
    cases h' with
    | again | ends => rfl
    | goesOn hnew => exact absurd hmem hnew
  | ends hnew hend =>
    cases h' with
    | again | ends => rfl
    | goesOn _ hwraps => exact absurd hwraps (hend _)
  | goesOn hnew hwraps _ ih =>
    cases h' with
    | again hmem => exact absurd hmem hnew
    | ends _ hend => exact absurd hwraps (hend _)
    | goesOn _ hwraps' hrest =>
      obtain rfl := rightUnique_wraps g hwraps hwraps'
      exact ih hrest

/-- As many rounds as there are nodes that are not yet remembered are enough for the loop.

**Proof sketch.** Induction on the rounds.  The nodes that are remembered are different nodes of the graph,
so there are no more of them than nodes; each round remembers one more. -/
theorem looksThrough_resolveFrom {steps : Nat} (hnodup : visited.Nodup)
    (hnodes : ∀ v ∈ visited, v < g.nodes.length) (hsteps : g.nodes.length < visited.length + steps) :
    g.LooksThrough visited t (g.resolveFrom steps visited t) := by
  induction steps generalizing visited t with
  | zero =>
    have hsubset : visited ⊆ List.range g.nodes.length := fun v hv => List.mem_range.2 (hnodes v hv)
    have hle := (hnodup.subperm hsubset).length_le
    rw [List.length_range] at hle
    omega
  | succ steps ih =>
    unfold resolveFrom
    split
    · next hmem => exact .again hmem
    · next hnew =>
      split
      · next next hnext =>
        have hwraps := wraps_iff.2 hnext
        refine .goesOn hnew hwraps (ih (List.nodup_cons.2 ⟨hnew, hnodup⟩) ?_ ?_)
        · exact List.forall_mem_cons.2 ⟨hwraps.lt_length, hnodes⟩
        · rw [List.length_cons]
          omega
      · next hnone => exact .ends hnew (not_wraps_iff.2 hnone)

/-- The loop ends, and with the node that is found. -/
theorem looksThrough_resolved (g : TypeGraph) (t : NodeId) : g.LooksThrough [] t (g.resolved t) :=
  looksThrough_resolveFrom List.nodup_nil (by simp) (by simp)

/-- What the loop ends with can be reached along the chain; it is the end of the chain, or the chain leads
from it back to itself. -/
theorem LooksThrough.settles (h : g.LooksThrough visited t r)
    (hvisited : ∀ v ∈ visited, TransGen g.Wraps v t) :
    ReflTransGen g.Wraps t r ∧ ((∀ m, ¬ g.Wraps r m) ∨ TransGen g.Wraps r r) := by
  induction h with
  | again hmem => exact ⟨.refl, Or.inr (hvisited _ hmem)⟩
  | ends _ hend => exact ⟨.refl, Or.inl hend⟩
  | @goesOn visited t m r hnew hwraps _ ih =>
    have hvisited' : ∀ v ∈ t :: visited, TransGen g.Wraps v m :=
      List.forall_mem_cons.2 ⟨.single hwraps, fun v hv => (hvisited v hv).tail hwraps⟩
    obtain ⟨hreach, hsettled⟩ := ih hvisited'
    exact ⟨.head hwraps hreach, hsettled⟩

theorem resolved_settles (g : TypeGraph) (t : NodeId) : ReflTransGen g.Wraps t (g.resolved t) ∧
    ((∀ m, ¬ g.Wraps (g.resolved t) m) ∨ TransGen g.Wraps (g.resolved t) (g.resolved t)) :=
  (looksThrough_resolved g t).settles (by simp)

/-! ## Chains that end -/

/-- Whatever a node on a cycle leads to lies on a cycle, too. -/
theorem cycle_of_reach (hcycle : TransGen g.Wraps r r) (h : ReflTransGen g.Wraps r e) :
    TransGen g.Wraps e e := by
  induction h with
  | refl => exact hcycle
  | tail _ hwraps ih =>
    obtain ⟨next, hnext, hback⟩ := TransGen.head'_iff.1 ih
    obtain rfl := rightUnique_wraps g hwraps hnext
    exact TransGen.tail' hback hwraps

theorem not_ends_of_cycle (hcycle : TransGen g.Wraps e e) : ∃ m, g.Wraps e m := by
  obtain ⟨m, hm, -⟩ := TransGen.head'_iff.1 hcycle
  exact ⟨m, hm⟩

/-- If the chain ends, this is where it settles. -/
theorem resolved_eq_of_ends (h : ReflTransGen g.Wraps t e) (hend : ∀ m, ¬ g.Wraps e m) :
    g.resolved t = e := by
  obtain ⟨hreach, hsettled⟩ := resolved_settles g t
  rcases ReflTransGen.total_of_right_unique (rightUnique_wraps g) h hreach with hafter | hbefore
  · rcases hafter.cases_head with heq | ⟨m, hm, -⟩
    · exact heq.symm
    · exact absurd hm (hend m)
  · rcases hbefore.cases_head with heq | ⟨m, hm, -⟩
    · exact heq
    · rcases hsettled with hend' | hcycle
      · exact absurd hm (hend' m)
      · obtain ⟨m', hm'⟩ := not_ends_of_cycle (cycle_of_reach hcycle hbefore)
        exact absurd hm' (hend m')

/-! ## Chains without end -/

/-- The nodes of the chain from a node on; where it has ended it stays. -/
def chain (g : TypeGraph) (t : NodeId) : ℕ → NodeId
  | 0 => t
  | n + 1 => (g.onlyMember? (g.chain t n)).getD (g.chain t n)

theorem chain_succ_of_wraps {n : ℕ} (h : g.Wraps (g.chain t n) m) : g.chain t (n + 1) = m := by
  rw [chain, wraps_iff.1 h]
  rfl

/-- A chain that nowhere ends goes on with single members. -/
theorem wraps_chain (hendless : ∀ e, ReflTransGen g.Wraps t e → ∃ m, g.Wraps e m) (n : ℕ) :
    g.Wraps (g.chain t n) (g.chain t (n + 1)) := by
  suffices hreach : ReflTransGen g.Wraps t (g.chain t n) by
    obtain ⟨m, hm⟩ := hendless _ hreach
    rw [chain_succ_of_wraps hm]
    exact hm
  induction n with
  | zero => exact .refl
  | succ n ih =>
    obtain ⟨m, hm⟩ := hendless _ ih
    rw [chain_succ_of_wraps hm]
    exact ih.tail hm

/-- The chain comes by every node that it leads to. -/
theorem exists_chain_succ_eq (h : TransGen g.Wraps t u) : ∃ n, g.chain t (n + 1) = u := by
  induction h with
  | single hwraps => exact ⟨0, chain_succ_of_wraps hwraps⟩
  | tail _ hwraps ih =>
    obtain ⟨n, rfl⟩ := ih
    exact ⟨n + 1, chain_succ_of_wraps hwraps⟩

section Endless

variable {walk : ℕ → NodeId} (hwalk : ∀ n, g.Wraps (walk n) (walk (n + 1)))

include hwalk

/-- On a walk without end the loop stops where the walk comes back for the first time.

**Proof sketch.** Induction along the loop: after `n` rounds the nodes that are remembered are the first
`n` of the walk, and these are different. -/
theorem LooksThrough.exists_repetition {n : ℕ} (hvisited : ∀ v, v ∈ visited ↔ ∃ i < n, walk i = v)
    (hdistinct : ∀ j, ∀ i < j, j < n → walk i ≠ walk j) (h : g.LooksThrough visited (walk n) r) :
    ∃ i k, i < k ∧ walk k = r ∧ walk i = r ∧ ∀ b, ∀ a < b, b < k → walk a ≠ walk b := by
  generalize ht : walk n = t at h
  induction h generalizing n with
  | again hmem =>
    obtain ⟨i, hi, heq⟩ := (hvisited _).1 hmem
    exact ⟨i, n, hi, ht, heq, hdistinct⟩
  | ends _ hend => exact absurd (ht ▸ hwalk n) (hend _)
  | @goesOn visited t m r hnew hwraps _ ih =>
    subst ht
    refine ih (n := n + 1) (fun v => ?_) (fun j i hij hj => ?_)
      (rightUnique_wraps g (hwalk n) hwraps)
    · rw [List.mem_cons, hvisited]
      constructor
      · rintro (rfl | ⟨i, hi, rfl⟩)
        · exact ⟨n, Nat.lt_succ_self n, rfl⟩
        · exact ⟨i, Nat.lt_succ_of_lt hi, rfl⟩
      · rintro ⟨i, hi, rfl⟩
        rcases Nat.lt_succ_iff_lt_or_eq.1 hi with hlt | rfl
        · exact Or.inr ⟨i, hlt, rfl⟩
        · exact Or.inl rfl
    · rcases Nat.lt_succ_iff_lt_or_eq.1 hj with hlt | rfl
      · exact hdistinct j i hij hlt
      · intro heq
        exact hnew ((hvisited _).2 ⟨i, hij, heq⟩)

/-- A walk that has come back goes round and round. -/
theorem exists_eq_of_repetition {i k : ℕ} (hik : i < k) (hback : walk k = walk i) {n : ℕ}
    (hn : i ≤ n) : ∃ l, i ≤ l ∧ l < k ∧ walk n = walk l := by
  induction n, hn using Nat.le_induction with
  | base => exact ⟨i, le_rfl, hik, rfl⟩
  | succ n hn ih =>
    obtain ⟨l, hil, hlk, heq⟩ := ih
    have hnext : walk (n + 1) = walk (l + 1) :=
      rightUnique_wraps g (hwalk n) (heq ▸ hwalk l)
    rcases Nat.lt_or_ge (l + 1) k with hlt | hge
    · exact ⟨l + 1, by omega, hlt, hnext⟩
    · obtain rfl : l + 1 = k := by omega
      exact ⟨i, le_rfl, hik, hnext.trans hback⟩

/-- On a walk without end the node that is found is the first of those that the walk comes back to. -/
theorem resolved_walk : ∃ i, g.resolved (walk 0) = walk i ∧ (∃ k > i, walk k = walk i) ∧
    ∀ j < i, ∀ k > j, walk k ≠ walk j := by
  obtain ⟨i, k, hik, hk, hi, hdistinct⟩ :=
    (looksThrough_resolved g (walk 0)).exists_repetition hwalk (by simp) (by simp)
  refine ⟨i, hi.symm, ⟨k, hik, hk.trans hi.symm⟩, fun j hj l hl heq => ?_⟩
  rcases Nat.lt_or_ge l i with hlt | hge
  · exact hdistinct l j hl (by omega) heq.symm
  · obtain ⟨l', hil, hlk, hsame⟩ := exists_eq_of_repetition hwalk hik (hk.trans hi.symm) hge
    exact hdistinct l' j (by omega) hlk (heq.symm.trans hsame)

end Endless

/-- A node on a cycle is where its own chain settles. -/
theorem resolved_eq_self_of_cycle (hcycle : TransGen g.Wraps r r) : g.resolved r = r := by
  have hwalk := wraps_chain fun e he => not_ends_of_cycle (cycle_of_reach hcycle he)
  obtain ⟨i, heq, -, hfirst⟩ := resolved_walk hwalk
  obtain ⟨n, hn⟩ := exists_chain_succ_eq hcycle
  -- The chain comes back to its first node, so no later one is the first that it comes back to.
  rcases Nat.eq_zero_or_pos i with rfl | hpos
  · exact heq
  · exact absurd hn (hfirst 0 hpos (n + 1) (Nat.succ_pos n))

/-- Where a chain has settled it stays. -/
theorem resolved_resolved (g : TypeGraph) (t : NodeId) :
    g.resolved (g.resolved t) = g.resolved t := by
  rcases (resolved_settles g t).2 with hend | hcycle
  · exact resolved_eq_of_ends .refl hend
  · exact resolved_eq_self_of_cycle hcycle

/-- In a grounded graph a node settles at a node. -/
theorem resolved_lt (hg : g.Grounded) (ht : t < g.nodes.length) : g.resolved t < g.nodes.length := by
  rcases (resolved_settles g t).1.cases_tail with heq | ⟨u, -, hwraps⟩
  · rwa [heq]
  · exact hwraps.member_lt hg

/-! ## Main results -/

/-- In every graph that has been built, for every node: the loop that looks through unions and
intersections of a single member ends, with one node of the graph.  If the chain of single members ends,
this node is its end.  If it does not, the node is the first of the chain that the chain comes back to, and
the chain leads from it back to itself.  Where a chain has settled it stays. -/
theorem performAll_resolved (requests : List Request) (hrequests : LinksAnswers requests) :
    let g := empty.performAll requests
    ∀ t < g.nodes.length,
      (∀ r, g.LooksThrough [] t r ↔ r = g.resolved t) ∧ g.resolved t < g.nodes.length ∧
      (∀ e, ReflTransGen g.Wraps t e → (∀ m, ¬ g.Wraps e m) → g.resolved t = e) ∧
      ((∀ e, ReflTransGen g.Wraps t e → ∃ m, g.Wraps e m) →
        (∃ walk : ℕ → NodeId, walk 0 = t ∧ (∀ n, g.Wraps (walk n) (walk (n + 1))) ∧
          ∃ i, g.resolved t = walk i ∧ (∃ k > i, walk k = walk i) ∧
            ∀ j < i, ∀ k > j, walk k ≠ walk j) ∧
        TransGen g.Wraps (g.resolved t) (g.resolved t)) ∧
      g.resolved (g.resolved t) = g.resolved t := by
  intro g t ht
  have hloop := looksThrough_resolved g t
  refine ⟨fun r => ⟨fun h => h.unique hloop, fun h => h ▸ hloop⟩,
    resolved_lt (grounded_performAll hrequests) ht, fun e => resolved_eq_of_ends, fun hendless => ?_,
    resolved_resolved g t⟩
  have hwalk := wraps_chain hendless
  refine ⟨⟨g.chain t, rfl, hwalk, resolved_walk hwalk⟩, ?_⟩
  obtain ⟨hreach, hend | hcycle⟩ := resolved_settles g t
  · obtain ⟨m, hm⟩ := hendless _ hreach
    exact absurd hm (hend m)
  · exact hcycle

/-- A union of an intersection that has a union as its only member, which has the intersection as its own:
the chain comes back to the intersection, and from there it goes round. -/
theorem performAll_resolved_round :
    let requests := [.declare .union, .declare .intersection, .declare .union,
      .setMembers 0 (.singleton 1), .setMembers 1 (.singleton 2), .setMembers 2 (.singleton 1)]
    let g := empty.performAll requests
    LinksAnswers requests ∧ 0 < g.nodes.length ∧ g.resolved 0 = 1 ∧ g.resolved 1 = 1 ∧
      g.LooksThrough [] 0 1 := by
  intro requests g
  have hrequests : LinksAnswers requests := by decide
  obtain ⟨hloop, -, -, -, hstays⟩ := performAll_resolved requests hrequests 0 (by decide)
  have hone : g.resolved 0 = 1 := by decide
  rw [hone] at hstays
  exact ⟨hrequests, by decide, hone, hstays, (hloop 1).2 hone.symm⟩

end TypeGraph

end ShapeGraph
