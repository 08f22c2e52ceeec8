import ShapeGraph.Proofs.Runs
import ShapeGraph.Proofs.Termination

/-!
# Which documents are accepted

A run without a limit succeeds just in case every reference resolves and all that can be met from its
target has the right shape.

## Main results

* `Progress.Sound.wellShaped_of_reaches` — all that is met from a path that stands for a node has the
  right shape.
* `Conversion.convertAll_ok_iff` — a run succeeds exactly on what is accepted.

## Design

In one direction, the paths that stand for nodes after a run are closed under what is met from them,
and nothing else than schemas of the right shape has a node.  In the other direction, a failure has
something of the wrong shape to blame, since a run does not go too deep.
-/

set_option autoImplicit false

namespace ShapeGraph

/-- What is met from a path that leads somewhere in the text is such a path. -/
theorem Corpus.Step.isAddressable {c : Corpus} (hc : c.Consistent) {path next : Reference}
    (hstep : c.Step path next) (hpath : path.IsAddressable) : next.IsAddressable := by
  obtain ⟨place, hplace, ⟨found, ⟨value, -, hfound⟩, rfl⟩ | ⟨-, inner, hinner, rfl⟩⟩ := hstep
  · have hlocated := located_of_place? hplace
    rw [← path_of_place? hplace] at hpath
    exact (hlocated.target hc hpath hfound).2
  · exact hinner.isAddressable

namespace Progress.Sound

variable {c : Corpus} {s : Progress MemoryStore}

/-- All that is met from a path that stands for a node stands for a node. -/
theorem bound_of_reaches (hs : s.Sound c []) (hc : c.Consistent) {path next : Reference}
    (hpath : path.IsAddressable) (hbound : ∃ t, s.nodeOf? path = some t)
    (hreaches : c.Reaches path next) : next.IsAddressable ∧ ∃ t, s.nodeOf? next = some t := by
  induction hreaches with
  | refl => exact ⟨hpath, hbound⟩
  | tail _ hstep ih =>
    obtain ⟨haddressable, t, ht⟩ := ih
    refine ⟨hstep.isAddressable hc haddressable, ?_⟩
    obtain ⟨place, hplace, -, hpending | hdescribes⟩ := hs.described _ t haddressable ht
    · cases hpending
    · rw [← Corpus.path_of_place? hplace] at hstep
      exact hdescribes.step_bound (Corpus.located_of_place? hplace) hstep

/-- All that is met from a path that stands for a node has the right shape. -/
theorem wellShaped_of_reaches (hs : s.Sound c []) (hc : c.Consistent) {path next : Reference}
    (hpath : path.IsAddressable) (hbound : ∃ t, s.nodeOf? path = some t)
    (hreaches : c.Reaches path next) : c.WellShaped next := by
  obtain ⟨haddressable, t, ht⟩ := hs.bound_of_reaches hc hpath hbound hreaches
  obtain ⟨place, hplace, hgrounded, hpending | hdescribes⟩ := hs.described _ t haddressable ht
  · cases hpending
  · exact ⟨place, hplace, hdescribes.shaped hgrounded⟩

end Progress.Sound

namespace Conversion

/-- A run without a limit succeeds just in case every reference resolves and all that can be met from
its target has the right shape. -/
theorem convertAll_ok_iff {c : Corpus} (hc : c.Consistent) {topLevels : SortedMap String Reference}
    (hparsed : ∀ e ∈ topLevels.entries, ∃ base text, e.2 = .parse base text) :
    (∃ s, convertAll none c.root c.rootAddress topLevels (Progress.start c.store) = .ok () s) ↔
      ∀ e ∈ topLevels.entries, c.Accepts e.2 := by
  have hmeets := convertAll_meets hc none fun e he => isReadable_parse (hparsed e he)
  constructor
  · rintro ⟨s, hrun⟩ e he
    obtain ⟨hs, hregistered⟩ := hmeets.of_eq_ok hrun
    obtain ⟨place, t, hentry, ht, -⟩ := hregistered e he
    exact ⟨place, hentry, fun path hreaches => hs.wellShaped_of_reaches hc
      (Corpus.located_entry? hentry).2 ⟨t, ht⟩ hreaches⟩
  · intro haccepts
    cases hrun : convertAll none c.root c.rootAddress topLevels (Progress.start c.store) with
    | ok _ s => exact ⟨s, rfl⟩
    | error e s =>
      obtain ⟨entry, hentry, hrejects⟩ := hmeets.of_eq_error hrun
      have hshallow := (convertAll_meets_noDepthFault c topLevels none (Nat.le_refl _)).of_eq_error hrun
      exact absurd (haccepts entry hentry) (hrejects.not_accepts hshallow)

/-- All that can be met from the root of the list has the right shape. -/
theorem convertAll_ok_iff_list : listCorpus.Accepts (.parse "list.json" "#") := by
  have hsucceeds : succeeds
      (convertAll none listCorpus.root listCorpus.rootAddress listEntries)
      (Progress.start listCorpus.store) = true := by decide +kernel
  obtain ⟨_, s, hrun⟩ := exists_eq_ok hsucceeds
  exact (convertAll_ok_iff listCorpus_consistent listEntries_parsed).1 ⟨s, hrun⟩ _
    (List.mem_singleton.2 rfl)

end Conversion

end ShapeGraph
