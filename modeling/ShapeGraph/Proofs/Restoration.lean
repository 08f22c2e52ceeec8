import ShapeGraph.Proofs.ReferenceCycles
import ShapeGraph.Proofs.Sessions

/-!
# What is being followed, before and after

While a reference is being followed, its path is at the end of the chain, and a schema that is no
reference is converted with a chain of its own.  Every conversion leaves the chain as it has found it,
also when it fails: what has been added is dropped again, and what has been set aside is put back.  A
path that stayed on the chain would make a later conversion report a cycle that there is not.

## Main definitions

* `Conversion.Restores` — a conversion leaves the chain as it has found it.

## Main results

* `Conversion.whileFollowing_restores` — dropping the last path undoes adding one, if the chain is
  restored in between.
* `Conversion.toType_restores` — the conversion of a place restores the chain.
* `Session.chain_restored` — so does every call, and between calls nothing is being followed.

## Design

Only what follows a reference adds to the chain at hand, so the induction is about this part alone: a
schema that is no reference has the chain put back whatever the conversions inside it have done.
-/

set_option autoImplicit false

namespace ShapeGraph

namespace Conversion

variable {σ α : Type}

/-- The conversion follows the same references afterwards as before, also if it fails. -/
def Restores (x : Conversion σ α) : Prop :=
  ∀ chain, Preserves (fun s => s.chain = chain) (fun _ => True) x

/-! ## Other references for a while -/

/-- A chain that has been set aside is put back, whatever is done in between. -/
theorem withChain_restores (chain : List Reference) (x : Conversion σ α) :
    Restores (withChain chain x) := by
  rintro before s rfl
  exact Meets.withChain (Meets.of_forall (fun _ _ => rfl) fun _ _ => ⟨rfl, trivial⟩)

/-- Dropping the last path undoes adding one, if the chain is restored in between. -/
theorem whileFollowing_restores (path : Reference) {x : Conversion σ α} (hx : Restores x) :
    Restores (whileFollowing path x) := by
  rintro before s rfl
  have hdropped : ∀ {s' : Progress σ}, s'.chain = s.chain ++ [path] →
      s'.chain.dropLast = s.chain := by
    intro s' hs'
    rw [hs', List.dropLast_concat]
  refine Meets.whileFollowing ((hx _ { s with chain := s.chain ++ [path] } rfl).mono ?_ ?_)
  · exact fun _ _ hs' => hdropped hs'
  · exact fun _ _ he => ⟨hdropped he.1, trivial⟩

/-! ## References -/

variable [DocumentSource σ] {recur : Converter σ} (hrec : ∀ place hints, Restores (recur place hints))

include hrec

omit [DocumentSource σ] in
theorem followTo_restores (path : Reference) (target : Place) (hints : Names) :
    Restores (followTo recur path target hints) := by
  intro chain s hs
  unfold followTo
  refine Meets.andThen (Meets.get ?_)
  dsimp only
  cases cycle? s.chain path target.path with
  | some hops => exact ⟨hs, trivial⟩
  | none => exact whileFollowing_restores path (hrec target hints) chain s hs

/-- The reference at a place leaves the chain as it has found it, be it that its target is not found or
is on the chain, or that the conversion of the target gives a node or fails. -/
theorem follow_restores (place : Place) (value : Json) (hints : Names) :
    Restores (follow recur place value hints) :=
  fun chain => follow_preserves (fun _ _ hs => hs)
    (fun target names => followTo_restores hrec place.path target names chain) value hints

/-! ## Places -/

theorem convertPlace_restores (place : Place) (hints : Names) :
    Restores (convertPlace recur place hints) := by
  intro chain
  have hframe : Frame (fun s : Progress σ => s.chain = chain) fun _ => True :=
    ⟨fun _ _ hs => hs, fun _ _ _ hs _ => hs, fun _ _ => trivial⟩
  rw [convertPlace_eq]
  refine Preserves.andThen ?_ fun t => (hframe.custody.bind place.path t).andThen fun _ => .pure t
  split
  · next hhas =>
    obtain ⟨value, hvalue⟩ := Json.has_eq_true_iff.1 hhas
    rw [convertFragment_of_reference recur hints hvalue]
    exact follow_restores hrec place value hints chain
  · exact withChain_restores [] _ chain

omit hrec

/-- The conversion of a place leaves the chain as it has found it: by induction on the budget. -/
theorem toType_restores (limit budget : Nat) (place : Place) (hints : Names) :
    Restores (σ := σ) (toType limit budget place hints) := by
  induction budget generalizing place hints with
  | zero => exact fun chain => .boundOr (.throw trivial)
  | succ budget ih => exact fun chain => .boundOr (convertPlace_restores ih place hints chain)

theorem convertOne_restores (limit : Option Nat) (place : Place) (hints : Names) (depth : Nat) :
    Restores (σ := σ) (convertOne limit place hints depth) :=
  fun chain s hs => Meets.andThen (Meets.get (toType_restores _ _ place hints chain s hs))

theorem convertAll_restores (limit : Option Nat) (root : Json) (rootAddress : String)
    (topLevels : SortedMap String Reference) :
    Restores (σ := σ) (convertAll limit root rootAddress topLevels) :=
  fun chain s hs => Meets.andThen (Meets.get (convertEntries_preserves (fun _ _ hs => hs)
    (fun limit budget place hints => toType_restores limit budget place hints chain)
    (fun _ _ _ hs => hs) limit _ root rootAddress topLevels.entries s hs))

end Conversion

/-! ## Sessions -/

namespace Session

open Conversion

variable {σ : Type} [DocumentSource σ] {limit : Option Nat}

/-- A call leaves the chain as it has found it. -/
theorem chain_after (limit : Option Nat) (s : Progress σ) (call : Call) :
    (after limit s call).chain = s.chain := by
  cases call with
  | convert root rootAddress topLevels =>
    exact (convertAll_restores limit root rootAddress topLevels s.chain).progressAfter rfl
  | toType place hints depth =>
    exact (convertOne_restores limit place hints depth s.chain).progressAfter rfl

/-- Nothing is being followed in a progress that a session can be in: by induction on its steps. -/
theorem CanReach.chain_eq_nil {s : Progress σ} (h : CanReach limit s) : s.chain = [] := by
  obtain ⟨graph, documents, -, hlater⟩ := h
  induction hlater with
  | refl => rfl
  | tail _ hstep ih =>
    cases hstep with
    | call call => exact (chain_after limit _ call).trans ih
    | exchange documents => exact ih

/-- Every conversion of a place leaves the references that are being followed as it has found them,
from whatever progress, with whatever source of documents, at whatever depth, and whether it gives a
node or fails.  So does every call of a session, and between calls no reference is being followed. -/
theorem chain_restored :
    (∀ (limit budget : Nat) (place : Place) (hints : Names) (s : Progress σ),
      (progressAfter (toType limit budget place hints) s).chain = s.chain) ∧
    (∀ (limit : Option Nat) (call : Call) (s : Progress σ), (after limit s call).chain = s.chain) ∧
    ∀ (limit : Option Nat) (s : Progress σ), CanReach limit s → s.chain = [] :=
  ⟨fun limit budget place hints s =>
      (toType_restores limit budget place hints s.chain).progressAfter rfl,
    fun limit call s => chain_after limit s call, fun _ _ h => h.chain_eq_nil⟩

/-- The run for the loop fails while two of its references are being followed, and none of them is
afterwards.  A path that has been on the chain before the loop is met is there after the failure. -/
theorem chain_restored_loop :
    let run := Call.convert loopCorpus.root loopCorpus.rootAddress loopEntries
    let start := Progress.start loopCorpus.store
    let other := Reference.root "other.json"
    let met := { start with chain := [other] }
    let place := loopPlace "a" "b"
    succeeds (convertAll (some 8) loopCorpus.root loopCorpus.rootAddress loopEntries) start = false ∧
      CanReach (some 8) (after (some 8) start run) ∧ (after (some 8) start run).chain = [] ∧
      succeeds (toType 8 8 place (.inferred "A")) met = false ∧
      (progressAfter (toType 8 8 place (.inferred "A")) met).chain = [other] := by
  intro run start other met place
  obtain ⟨hplaces, -, hsessions⟩ := chain_restored (σ := MemoryStore)
  have hreach : CanReach (some 8) (after (some 8) start run) :=
    ⟨.empty, loopCorpus.store, .empty, Relation.ReflTransGen.single (.call run)⟩
  refine ⟨by decide +kernel, hreach, hsessions (some 8) _ hreach, by decide +kernel, ?_⟩
  exact hplaces 8 8 place (.inferred "A") met

end Session

end ShapeGraph
