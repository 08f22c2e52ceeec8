import ShapeGraph.Proofs.Directories
import ShapeGraph.Proofs.SourcesInStep

/-!
# Limits only cut off

A limit for the nesting of schemas has no influence on a conversion other than that it may end it.  A run
with a limit that does not go too deep has the same outcome as with any larger limit and as without one:
the same result or failure, and the same progress.

## Main definitions

* `Conversion.cutOff` — the coupling of conversions that are the same until one goes too deep.
* `Conversion.StaysShallow` — a conversion does not go too deep.

## Main results

* `Conversion.convertAll_inStep` — a run with two limits.
* `Conversion.convertAll_of_limit` — what a limit has no influence on.

## Design

A run without a limit has a budget, too, which need not be larger than a given limit.  It is never used
up, so such a limit is then the one that is too large to matter.
-/

set_option autoImplicit false

namespace ShapeGraph

namespace Conversion

variable {σ α : Type}

/-- The progress is the same on both sides, until the first conversion goes too deep. -/
def cutOff (σ : Type) : Coupling σ := upToSource Eq True

theorem cutOff_relates_iff {s s' : Progress σ} : (cutOff σ).relates s s' ↔ s' = s := by
  constructor
  · rintro ⟨documents, rfl, rfl⟩
    rfl
  · rintro rfl
    exact ⟨_, rfl, rfl⟩

/-- Where the first conversion does not go too deep, the second one does the same. -/
theorem Lockstep.eq_of_cutOff {x y : Conversion σ α} {s : Progress σ}
    (h : Lockstep (cutOff σ) x y s s fun _ => (cutOff σ).relates)
    (hx : ∀ e t, x s = .error e t → e.isDepthFault = false) : y s = x s := by
  have hagrees := h.uncut hx
  unfold Lockstep Meets at hagrees
  cases hrun : x s with
  | ok a t =>
    rw [hrun] at hagrees
    obtain ⟨t', hy, ht⟩ := hagrees
    rw [hy, cutOff_relates_iff.1 ht]
  | error e t =>
    rw [hrun] at hagrees
    obtain ⟨hcut, -⟩ | ⟨t', hy, ht⟩ := hagrees
    · exact hcut.elim
    · rw [hy, cutOff_relates_iff.1 ht]

/-- A run stays the same with more levels, until it goes too deep. -/
theorem convertAll_inStep [DocumentSource σ] {limit limit' : Option Nat} {root : Json} {rootAddress : String}
    {topLevels : SortedMap String Reference} {s : Progress σ}
    (hlevels : levelsLeft limit
        (extentOf s.documents root rootAddress (topLevels.entries.map Prod.snd)) 0 ≤
      levelsLeft limit'
        (extentOf s.documents root rootAddress (topLevels.entries.map Prod.snd)) 0) :
    Lockstep (cutOff σ) (convertAll limit root rootAddress topLevels)
      (convertAll limit' root rootAddress topLevels) s s fun _ => (cutOff σ).relates :=
  convertAll_upToSource .eq (cutOff_relates_iff.2 rfl) ⟨hlevels, fun h => absurd trivial h⟩

/-! ## Outcomes -/

/-- The conversion does not go too deep. -/
def StaysShallow (x : Conversion σ α) (s : Progress σ) : Prop :=
  ∀ level path t, x s ≠ .error (.depthExceeded level path) t

theorem StaysShallow.isDepthFault_eq_false {x : Conversion σ α} {s : Progress σ}
    (h : StaysShallow x s) (e : Failure) (t : Progress σ) (hx : x s = .error e t) :
    e.isDepthFault = false := by
  cases e with
  | depthExceeded level path => exact absurd hx (h level path t)
  | _ => rfl

/-- A limit only cuts off.

* Wherever documents come from, unless a run with a limit goes too deep, its result or failure and the
  progress that it leaves behind are the same with every larger limit.
* They are the same without a limit, too, unless that run goes too deep.
* A run without a limit never does so if documents come from a store, in memory or in a directory. -/
theorem convertAll_of_limit :
    (∀ (σ : Type) [DocumentSource σ] (documents : σ) (root : Json) (rootAddress : String)
        (topLevels : SortedMap String Reference) (limit : Nat),
      StaysShallow (convertAll (some limit) root rootAddress topLevels) (Progress.start documents) →
        (∀ limit', limit ≤ limit' →
          convertAll (some limit') root rootAddress topLevels (Progress.start documents) =
            convertAll (some limit) root rootAddress topLevels (Progress.start documents)) ∧
        (StaysShallow (convertAll none root rootAddress topLevels) (Progress.start documents) →
          convertAll none root rootAddress topLevels (Progress.start documents) =
            convertAll (some limit) root rootAddress topLevels (Progress.start documents))) ∧
    (∀ (c : Corpus) (topLevels : SortedMap String Reference),
      StaysShallow (convertAll none c.root c.rootAddress topLevels) (Progress.start c.store)) ∧
    ∀ (store : DirectoryStore) (root : Json) (rootAddress : String)
        (topLevels : SortedMap String Reference),
      StaysShallow (convertAll none root rootAddress topLevels) (Progress.start store) := by
  refine ⟨fun σ _ documents root rootAddress topLevels limit hlimit =>
      ⟨fun limit' hle => ?_, fun hnone => ?_⟩,
    fun c topLevels => (convertAll_terminates c topLevels).2,
    fun store root rootAddress topLevels level path t hrun => ?_⟩
  · have hlevels : ∀ extent, levelsLeft (some limit) extent 0 ≤ levelsLeft (some limit') extent 0 :=
      fun _ => Nat.succ_le_succ hle
    exact (convertAll_inStep (hlevels _)).eq_of_cutOff hlimit.isDepthFault_eq_false
  · rcases Nat.le_total (levelsLeft (some limit) _ 0) (levelsLeft none _ 0) with hle | hle
    · exact (convertAll_inStep hle).eq_of_cutOff hlimit.isDepthFault_eq_false
    · exact ((convertAll_inStep hle).eq_of_cutOff hnone.isDepthFault_eq_false).symm
  · cases (store.convertAll_staysShallow root rootAddress topLevels).of_eq_error hrun

/-- The list is converted with a limit of eight, and so it is with every larger limit and without one. -/
theorem convertAll_of_limit_list :
    ∃ s, convertAll none listCorpus.root listCorpus.rootAddress listEntries
        (Progress.start listCorpus.store) = .ok () s ∧
      ∀ limit', 8 ≤ limit' → convertAll (some limit') listCorpus.root listCorpus.rootAddress
        listEntries (Progress.start listCorpus.store) = .ok () s := by
  have hsucceeds : succeeds
      (convertAll (some 8) listCorpus.root listCorpus.rootAddress listEntries)
      (Progress.start listCorpus.store) = true := by decide +kernel
  obtain ⟨_, s, hrun⟩ := exists_eq_ok hsucceeds
  have hlimit : StaysShallow (convertAll (some 8) listCorpus.root listCorpus.rootAddress listEntries)
      (Progress.start listCorpus.store) := by
    intro level path t ht
    rw [hrun] at ht
    cases ht
  obtain ⟨hlimits, hshallow, -⟩ := convertAll_of_limit
  obtain ⟨hlarger, hnone⟩ := hlimits MemoryStore listCorpus.store listCorpus.root
    listCorpus.rootAddress listEntries 8 hlimit
  exact ⟨s, (hnone (hshallow listCorpus listEntries)).trans hrun,
    fun limit' hle => (hlarger limit' hle).trans hrun⟩

end Conversion

end ShapeGraph
