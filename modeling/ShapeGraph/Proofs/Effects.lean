import ShapeGraph.Conversion.Run
import ShapeGraph.Proofs.Frames

/-!
# What a conversion leaves alone

A conversion follows references, fetches documents and converts schemas inside schemas.  What no
operation on the way breaks holds after the conversion if it has held before, whether the conversion
succeeds or fails, and whatever the documents are.

## Main definitions

* `Conversion.Steady` — nothing that is done in the course of a conversion breaks what holds of the
  progress.

## Main results

* `Conversion.toType_preserves` — the conversion of a place, with any budget.
* `Conversion.convertOne_preserves`, `Conversion.convertAll_preserves` — a single place and a run.
-/

set_option autoImplicit false

namespace ShapeGraph

namespace Conversion

variable {σ α : Type} [DocumentSource σ] {inv : Progress σ → Prop} {mine : NodeId → Prop}

/-- Operations on the graph, as long as members are only set for nodes in custody, new bindings, other
references being followed, and fetched documents keep what holds of the progress. -/
structure Steady (inv : Progress σ → Prop) (mine : NodeId → Prop) : Prop
    extends Custody inv mine fun _ => True where
  chained : ∀ s chain, inv s → inv { s with chain := chain }
  fetched : ∀ s address, inv s →
    inv { s with documents := (DocumentSource.fetch s.documents address).2 }

/-- What is kept is kept together. -/
theorem Steady.and {inv' : Progress σ → Prop} (h : Steady inv mine) (h' : Steady inv' mine) :
    Steady (fun s => inv s ∧ inv' s) mine where
  interned s shape hshape hs := ⟨h.interned s shape hshape hs.1, h'.interned s shape hshape hs.2⟩
  declared s operation hs :=
    ⟨(h.declared s operation hs.1).1, (h.declared s operation hs.1).2,
      (h'.declared s operation hs.2).2⟩
  filled s t members ht hs := ⟨h.filled s t members ht hs.1, h'.filled s t members ht hs.2⟩
  attributed s t attributes hs := ⟨h.attributed s t attributes hs.1, h'.attributed s t attributes hs.2⟩
  bindPath s path t hs hfree := ⟨h.bindPath s path t hs.1 hfree, h'.bindPath s path t hs.2 hfree⟩
  allows := h.allows
  chained s chain hs := ⟨h.chained s chain hs.1, h'.chained s chain hs.2⟩
  fetched s address hs := ⟨h.fetched s address hs.1, h'.fetched s address hs.2⟩

/-! ## Documents -/

section Documents

variable (hfetched : ∀ s address, inv s →
  inv { s with documents := (DocumentSource.fetch s.documents address).2 })

include hfetched

theorem fetch_preserves (address : String) : Preserves inv (fun _ => True) (fetch address) := by
  intro s hs
  have hinv := hfetched s address hs
  exact Meets.andThen (Meets.get (Meets.ofResult (fun _ _ => hinv) fun _ _ => ⟨hinv, trivial⟩))

theorem locate_preserves (place : Place) (target : Reference) :
    Preserves inv (fun _ => True) (locate place target) := by
  unfold locate
  split
  · exact .ofResult fun _ _ => trivial
  · exact (fetch_preserves hfetched _).andThen fun document => .ofResult fun _ _ => trivial

/-- Following a reference keeps what is kept once its target has been found. -/
theorem follow_preserves {recur : Converter σ} {place : Place}
    (hfollowed : ∀ target hints,
      Preserves inv (fun _ => True) (followTo recur place.path target hints))
    (value : Json) (hints : Names) :
    Preserves inv (fun _ => True) (follow recur place value hints) := by
  unfold follow
  refine Preserves.andThen (.ofResult fun _ _ => trivial) fun target => ?_
  refine Preserves.andThen (.ofResult fun _ _ => trivial) fun names => ?_
  exact (locate_preserves hfetched place target).andThen fun found => hfollowed found names

theorem topLevelPlace_preserves (root : Json) (rootAddress : String) (reference : Reference) :
    Preserves inv (fun _ => True) (topLevelPlace root rootAddress reference) := by
  unfold topLevelPlace
  split
  · exact Preserves.andThen (.pure root) fun document => .ofResult fun _ _ => trivial
  · exact (fetch_preserves hfetched _).andThen fun document => .ofResult fun _ _ => trivial

/-- The conversion of several references keeps what the conversion of a place keeps, if naming a node
keeps it, too. -/
theorem convertEntries_preserves
    (hplaces : ∀ limit budget place hints,
      Preserves inv (fun _ => True) (toType limit budget place hints))
    (hnamed : ∀ s name t, inv s → inv { s with graph := s.graph.addTopLevel name t })
    (limit : Option Nat) (extent : Extent) (root : Json) (rootAddress : String)
    (entries : List (String × Reference)) :
    Preserves inv (fun _ => True)
      (entries.forM fun e => convertTopLevel limit extent root rootAddress e.1 e.2) := by
  refine .forM fun entry _ => ?_
  unfold convertTopLevel
  refine (topLevelPlace_preserves hfetched _ _ _).andThen fun place => ?_
  refine Preserves.andThen (hplaces _ _ place _) fun t => ?_
  exact fun s hs => Meets.onGraph (hnamed s entry.1 t hs)

end Documents

/-! ## References -/

section Steady

variable (steady : Steady inv mine)

include steady

theorem onChain_preserves {enter : List Reference → List Reference}
    {leave : List Reference → List Reference → List Reference} {x : Conversion σ α}
    (hx : Preserves inv (fun _ => True) x) :
    Preserves inv (fun _ => True) (onChain enter leave x) := by
  intro s hs
  refine Meets.onChain ((hx _ (steady.chained s _ hs)).mono ?_ ?_)
  · intro _ s' hs'
    exact steady.chained s' _ hs'
  · rintro _ s' ⟨hs', -⟩
    exact ⟨steady.chained s' _ hs', trivial⟩

variable {recur : Converter σ} (hrec : ∀ place hints, Preserves inv (fun _ => True) (recur place hints))

include hrec

theorem followTo_preserves (path : Reference) (target : Place) (hints : Names) :
    Preserves inv (fun _ => True) (followTo recur path target hints) := by
  intro s hs
  unfold followTo
  refine Meets.andThen (Meets.get ?_)
  dsimp only
  cases cycle? s.chain path target.path with
  | some hops => exact ⟨hs, trivial⟩
  | none => exact onChain_preserves steady (hrec target hints) s hs

/-! ## Places -/

theorem convertFragment_preserves (place : Place) (hints : Names) :
    Preserves inv (fun _ => True) (convertFragment recur place hints) := by
  have hcustody := steady.toCustody
  rcases place.view with ⟨b, hb⟩ | ⟨value, hvalue⟩ | ⟨cases, href, hcases⟩ | hschema | ⟨hbool, hobj⟩
  · rw [convertFragment_of_bool recur hints hb]
    exact hcustody.intern rfl
  · rw [convertFragment_of_reference recur hints hvalue]
    exact follow_preserves steady.fetched (followTo_preserves steady hrec place.path) value hints
  · rw [convertFragment_of_enum recur hints href hcases]
    exact convertEnum_preserves hcustody cases place.path _
  · rw [convertFragment_of_isSchema recur hints hschema]
    exact convertSchema_preserves hcustody (fun child _ names => hrec child names) _
  · rw [convertFragment_of_none recur hints hbool hobj]
    exact .throw trivial

theorem convertPlace_preserves (place : Place) (hints : Names) :
    Preserves inv (fun _ => True) (convertPlace recur place hints) := by
  have hfragment := convertFragment_preserves steady hrec place hints
  rw [convertPlace_eq]
  refine Preserves.andThen ?_ fun t => (steady.bind place.path t).andThen fun _ => .pure t
  split
  · exact hfragment
  · exact onChain_preserves steady hfragment

omit hrec

/-! ## Recursion and runs -/

/-- The conversion of a place keeps what its steps keep: by induction on the budget. -/
theorem toType_preserves (limit budget : Nat) (place : Place) (hints : Names) :
    Preserves inv (fun _ => True) (toType limit budget place hints) := by
  induction budget generalizing place hints with
  | zero => exact .boundOr (.throw trivial)
  | succ budget ih => exact .boundOr (convertPlace_preserves steady ih place hints)

theorem convertOne_preserves (limit : Option Nat) (place : Place) (hints : Names) (depth : Nat) :
    Preserves inv (fun _ => True) (convertOne limit place hints depth) :=
  fun s hs => Meets.andThen (Meets.get (toType_preserves steady _ _ place hints s hs))

/-- A run keeps what its steps keep, if naming a node keeps it, too. -/
theorem convertAll_preserves
    (hnamed : ∀ s name t, inv s → inv { s with graph := s.graph.addTopLevel name t })
    (limit : Option Nat) (root : Json) (rootAddress : String)
    (topLevels : SortedMap String Reference) :
    Preserves inv (fun _ => True) (convertAll limit root rootAddress topLevels) :=
  fun s hs => Meets.andThen (Meets.get (convertEntries_preserves steady.fetched
    (toType_preserves steady) hnamed limit _ root rootAddress topLevels.entries s hs))

end Steady

end Conversion

end ShapeGraph
