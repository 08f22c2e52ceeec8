import ShapeGraph.Proofs.PlacesInStep
import ShapeGraph.Proofs.Runs

/-!
# Sources in step

A conversion looks at a source of documents in no other way than by fetching.  So sources that give the
same for every address, at first and after any fetches, can stand for each other.  The levels that are
left make no difference either, as long as both conversions have the same number, or neither goes too
deep.

## Main definitions

* `Interchangeable` — sources that can stand for each other.
* `Conversion.upToSource` — the coupling of progresses that are equal up to the source.
* `Conversion.Outlasts` — one budget is at least the other, and the same if that matters.

## Main results

* `Conversion.toType_upToSource` — the conversion of a place, from two sources and with two budgets.
* `Conversion.convertAll_upToSource` — a run, from two sources and with two limits.

## Design

If `cut` holds, nothing is asked of the second conversion once the first one has gone too deep.
-/

set_option autoImplicit false

namespace ShapeGraph

variable {σ α : Type}

/-- Sources that agree give the same result for every address, and agree again afterwards. -/
structure Interchangeable [DocumentSource σ] (agree : σ → σ → Prop) : Prop where
  fetch_eq : ∀ {d d'} address, agree d d' →
    (DocumentSource.fetch d' address).1 = (DocumentSource.fetch d address).1
  keeps : ∀ {d d'} address, agree d d' →
    agree (DocumentSource.fetch d address).2 (DocumentSource.fetch d' address).2

theorem Interchangeable.eq [DocumentSource σ] : Interchangeable (Eq : σ → σ → Prop) where
  fetch_eq address h := by rw [h]
  keeps address h := by rw [h]

/-- Nothing differs but the sources, and these agree. -/
def Progress.EqUpToSource (agree : σ → σ → Prop) (s s' : Progress σ) : Prop :=
  ∃ documents, agree s.documents documents ∧ s' = { s with documents := documents }

namespace Conversion

variable {agree : σ → σ → Prop} {cut : Prop}

/-- The progress is the same on both sides up to the source.  If `cut` holds, then only until the first
conversion goes too deep. -/
def upToSource (agree : σ → σ → Prop) (cut : Prop) : Coupling σ where
  relates := Progress.EqUpToSource agree
  fails _ := Progress.EqUpToSource agree
  cuts e := cut ∧ e.isDepthFault = true
  loose _ _ := True

theorem upToSource_stable (agree : σ → σ → Prop) (cut : Prop) (a : Attributes) :
    (upToSource agree cut).Stable a a where
  nodeOf?_eq := by
    rintro s _ ⟨documents, -, rfl⟩ path
    rfl
  interned := by
    rintro s _ shape - ⟨documents, hagree, rfl⟩
    exact ⟨rfl, ⟨documents, hagree, rfl⟩, fun _ => trivial⟩
  declared := by
    rintro s _ operation ⟨documents, hagree, rfl⟩
    exact ⟨rfl, documents, hagree, rfl⟩
  filled := by
    rintro s _ t members ⟨documents, hagree, rfl⟩
    exact ⟨rfl, documents, hagree, rfl⟩
  attributed := by
    rintro s _ t - ⟨documents, hagree, rfl⟩
    exact ⟨documents, hagree, rfl⟩
  loose_of_union _ := trivial
  keyed := by
    rintro s _ path t - - ⟨documents, hagree, rfl⟩
    exact ⟨documents, hagree, rfl⟩
  excuses _ _ _ _ hs := hs

section Agreeing

variable [DocumentSource σ] (sources : Interchangeable agree)

include sources

theorem upToSource_uniform (cut : Prop) : (upToSource agree cut).Uniform True where
  stable h := h trivial ▸ upToSource_stable agree cut _
  loose_of_intersection _ := trivial
  fails_iff := Iff.rfl
  bound := by
    rintro s _ path t - ⟨documents, hagree, rfl⟩
    exact ⟨documents, hagree, rfl⟩
  chain_eq := by
    rintro s _ ⟨documents, -, rfl⟩
    rfl
  chained := by
    rintro s _ chain ⟨documents, hagree, rfl⟩
    exact ⟨documents, hagree, rfl⟩
  fetched := by
    rintro s _ address ⟨documents, hagree, rfl⟩
    exact ⟨sources.fetch_eq address hagree, _, sources.keeps address hagree, rfl⟩

end Agreeing

/-! ## Outcomes -/

/-- Where the first conversion does not go too deep, nothing is cut off. -/
theorem Lockstep.uncut {x y : Conversion σ α} {s s' : Progress σ}
    (h : Lockstep (upToSource agree cut) x y s s' fun _ => (upToSource agree cut).relates)
    (hx : ∀ e t, x s = .error e t → e.isDepthFault = false) :
    Lockstep (upToSource agree False) x y s s' fun _ => (upToSource agree False).relates := by
  unfold Lockstep Meets at h ⊢
  cases hrun : x s with
  | ok a t =>
    rw [hrun] at h
    exact h
  | error e t =>
    rw [hrun] at h
    rcases h with ⟨-, hdeep⟩ | hfails
    · exact absurd hdeep (Bool.eq_false_iff.1 (hx e t hrun))
    · exact Or.inr hfails

/-- Where nothing is cut off, the two sides can be exchanged. -/
theorem Lockstep.symm {x y : Conversion σ α} {s s' : Progress σ}
    (hsymm : ∀ d d', agree d d' → agree d' d)
    (h : Lockstep (upToSource agree False) x y s s' fun _ => (upToSource agree False).relates) :
    Lockstep (upToSource agree False) y x s' s fun _ => (upToSource agree False).relates := by
  have hback : ∀ {t t' : Progress σ}, t.EqUpToSource agree t' → t'.EqUpToSource agree t := by
    rintro t _ ⟨documents, hagree, rfl⟩
    exact ⟨t.documents, hsymm _ _ hagree, rfl⟩
  unfold Lockstep Meets at h ⊢
  cases hrun : x s with
  | ok a t =>
    rw [hrun] at h
    obtain ⟨t', hy, ht⟩ := h
    rw [hy]
    exact ⟨t, rfl, hback ht⟩
  | error e t =>
    rw [hrun] at h
    obtain ⟨hfalse, -⟩ | ⟨t', hy, ht⟩ := h
    · exact hfalse.elim
    · rw [hy]
      exact Or.inr ⟨t, rfl, hback ht⟩

/-! ## Places -/

/-- The second budget is at least the first; unless conversions that go too deep are cut off, it is the
same, and is reported under the same limit. -/
def Outlasts (cut : Prop) (limit budget limit' budget' : Nat) : Prop :=
  budget ≤ budget' ∧ (¬ cut → budget' = budget ∧ limit' = limit)

variable [DocumentSource σ] (sources : Interchangeable agree)

include sources

/-- The conversion of a place stays the same from another source and with a larger budget, until it goes
too deep.

**Proof sketch.** Induction on the smaller budget.  A path that stands for a node is not converted
anew, whatever the budget is.  Otherwise the smaller budget is either used up, or both become smaller by
one for the schemas inside. -/
theorem toType_upToSource {limit budget limit' budget' : Nat}
    (hbudget : Outlasts cut limit budget limit' budget') (place : Place) (names : Names) :
    InStep (upToSource agree cut) (toType limit budget place names)
      (toType limit' budget' place names) := by
  have uniform := upToSource_uniform sources cut
  induction budget generalizing budget' place names with
  | zero =>
    by_cases hcut : cut
    · intro s s' hs
      cases budget' <;>
        exact boundOr_lockstep uniform hs fun _ => Meets.throw (Or.inl ⟨hcut, rfl⟩)
    · obtain ⟨rfl, rfl⟩ := hbudget.2 hcut
      exact fun s s' hs => boundOr_lockstep uniform hs fun _ => Lockstep.throw hs
  | succ budget ih =>
    cases budget' with
    | zero => exact absurd hbudget.1 (Nat.not_succ_le_zero budget)
    | succ budget' =>
      have hless : Outlasts cut limit budget limit' budget' :=
        ⟨Nat.le_of_succ_le_succ hbudget.1,
          fun hcut => ⟨Nat.succ.inj (hbudget.2 hcut).1, (hbudget.2 hcut).2⟩⟩
      have hrec : ∀ child given given', (True → given = given') → InStep (upToSource agree cut)
          (toType limit budget child given) (toType limit' budget' child given') := by
        intro child given given' hgiven
        obtain rfl := hgiven trivial
        exact ih hless child given
      have hremembers := toType_remembers (σ := σ) limit budget
      intro s s' hs
      exact boundOr_lockstep uniform hs fun _ =>
        convertPlace_inStep uniform hrec hremembers place (fun _ => rfl) hs

/-! ## Runs -/

/-- A run stays the same from another source and with more levels, until it goes too deep. -/
theorem convertAll_upToSource {limit limit' : Option Nat} {root : Json} {rootAddress : String}
    {topLevels : SortedMap String Reference} {s s' : Progress σ} (hs : s.EqUpToSource agree s')
    (hlevels :
      let levels := levelsLeft limit
        (extentOf s.documents root rootAddress (topLevels.entries.map Prod.snd)) 0
      let levels' := levelsLeft limit'
        (extentOf s'.documents root rootAddress (topLevels.entries.map Prod.snd)) 0
      Outlasts cut (limit.getD levels) levels (limit'.getD levels') levels') :
    Lockstep (upToSource agree cut) (convertAll limit root rootAddress topLevels)
      (convertAll limit' root rootAddress topLevels) s s'
      fun _ => (upToSource agree cut).relates := by
  refine Lockstep.get ?_
  dsimp only at hlevels ⊢
  generalize extentOf s.documents root rootAddress (topLevels.entries.map Prod.snd) = extent
    at hlevels ⊢
  generalize extentOf s'.documents root rootAddress (topLevels.entries.map Prod.snd) = extent'
    at hlevels ⊢
  have hentries : ∀ entries : List (String × Reference), InStep (upToSource agree cut)
      (entries.forM fun e => convertTopLevel limit extent root rootAddress e.1 e.2)
      (entries.forM fun e => convertTopLevel limit' extent' root rootAddress e.1 e.2) := by
    intro entries
    induction entries with
    | nil => exact .pure ()
    | cons entry rest ih =>
      unfold List.forM convertTopLevel
      refine InStep.andThen ?_ fun _ => ih
      refine (topLevelPlace_inStep (upToSource_uniform sources cut) root rootAddress entry.2).andThen
        fun place => ?_
      refine (toType_upToSource sources hlevels place _).andThen fun t => ?_
      rintro s _ ⟨documents, hagree, rfl⟩
      exact Lockstep.onGraph rfl ⟨documents, hagree, rfl⟩
  exact hentries topLevels.entries hs

end Conversion

end ShapeGraph
