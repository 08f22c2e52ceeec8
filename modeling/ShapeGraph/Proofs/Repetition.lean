import ShapeGraph.Proofs.Fetching
import ShapeGraph.Proofs.PartsInStep
import ShapeGraph.Proofs.Sessions

/-!
# Running again after a success

When a run has succeeded, each of its references leads to a place whose path stands for a node, and each of
its names is known for that node.  So the same run finds all that it needs, and changes nothing.  This
takes a source that gives a document again once it has given it.

## Main definitions

* `Offers` — a source gives a document without being changed by that.
* `Retentive` — what a source has given once, it goes on to offer.
* `Progress.Done` — a name and a reference of which nothing is left to do.

## Main results

* `MemoryStore.retentive`, `DirectoryStore.retentive` — both kinds of stores are such sources.
* `Conversion.convertEntries_done` — after a success there is nothing left to do.
* `Conversion.convertEntries_of_done` — where nothing is left to do, nothing is done.
* `Conversion.convertAll_again` — a run that has succeeded changes nothing when it is repeated.

## Design

Nothing is asked of the progress at the start of the run.  It may be left over from runs that have failed,
and paths may stand for nodes that are half-built.
-/

set_option autoImplicit false

namespace ShapeGraph

/-! ## Sources that give documents again -/

section Sources

variable {σ : Type} [DocumentSource σ]

/-- The source gives the document at the address and is not changed by that. -/
def Offers (source : σ) (address : String) (document : Json) : Prop :=
  DocumentSource.fetch source address = (.ok document, source)

variable (σ) in
/-- A document that the source has given is offered from then on, whatever the source is asked for. -/
structure Retentive : Prop where
  offers_of_fetch : ∀ (source : σ) address document,
    (DocumentSource.fetch source address).1 = .ok document →
      Offers (DocumentSource.fetch source address).2 address document
  offers_fetch : ∀ (source : σ) address document other, Offers source address document →
    Offers (DocumentSource.fetch source other).2 address document

end Sources

/-- Documents in memory stay as they are. -/
theorem MemoryStore.retentive : Retentive MemoryStore where
  offers_of_fetch store _ _ h := Prod.ext h (rfl : _ = store)
  offers_fetch _ _ _ _ h := h

/-- Documents of a directory are kept when they have been read. -/
theorem DirectoryStore.retentive : Retentive DirectoryStore where
  offers_of_fetch _ _ _ h := fetch_of_find? (find?_of_fetch h)
  offers_fetch store address document other h := by
    have hfetch : store.fetch address = (.ok document, store) := h
    have hkept := find?_of_fetch (congrArg Prod.fst hfetch)
    rw [hfetch] at hkept
    exact fetch_of_find? ((store.fetch_gathers other).kept _ _ hkept)

/-! ## References that are done with -/

section Progress

variable {σ : Type} [DocumentSource σ]

/-- The reference leads to the place, and no document has to be read for that. -/
def Leads (root : Json) (rootAddress : String) (source : σ) (reference : Reference) (place : Place) :
    Prop :=
  ∃ document, (if reference.address = rootAddress then document = root
      else Offers source reference.address document) ∧
    (Place.ofDocument reference.address document).lookup reference = .ok place

/-- The reference leads to a place whose path stands for a node, and the name is known for this node. -/
def Progress.Done (root : Json) (rootAddress : String) (s : Progress σ) (name : String)
    (reference : Reference) : Prop :=
  ∃ place t, Leads root rootAddress s.documents reference place ∧ s.nodeOf? place.path = some t ∧
    s.graph.topLevels.find? name = some t

end Progress

namespace Conversion

open Progress

variable {σ : Type} [DocumentSource σ] {root : Json} {rootAddress : String} {reference : Reference}
  {place : Place} {s : Progress σ}

/-! ## What is kept -/

/-- A reference goes on to lead to its place. -/
theorem leads_steady (retentive : Retentive σ) (root : Json) (rootAddress : String)
    (reference : Reference) (place : Place) :
    Steady (fun s : Progress σ => Leads root rootAddress s.documents reference place)
      fun _ => True where
  toCustody := Frame.custody ⟨fun _ _ hs => hs, fun _ _ _ hs _ => hs, fun _ _ => trivial⟩
  chained _ _ hs := hs
  fetched s other hs := by
    obtain ⟨document, hdocument, hlookup⟩ := hs
    refine ⟨document, ?_, hlookup⟩
    split at hdocument
    · next heq => rwa [if_pos heq]
    · next hne =>
      rw [if_neg hne]
      exact retentive.offers_fetch _ _ _ other hdocument

/-- A path goes on to stand for its node. -/
theorem nodeOf_steady (path : Reference) (t : NodeId) :
    Steady (fun s : Progress σ => s.nodeOf? path = some t) fun _ => True where
  toCustody := Frame.custody
    ⟨fun _ _ hs => hs, fun _ _ u hs hfree => bound_bind hfree u hs, fun _ _ => trivial⟩
  chained _ _ hs := hs
  fetched _ _ hs := hs

/-! ## After a success -/

/-- A reference that has been followed leads to a place without any document to be read. -/
theorem topLevelPlace_leads (retentive : Retentive σ) (reference : Reference) (s : Progress σ) :
    Meets (topLevelPlace root rootAddress reference) s
      (fun place s' => Leads root rootAddress s'.documents reference place) fun _ _ => True := by
  unfold topLevelPlace
  by_cases haddress : reference.address = rootAddress
  · rw [if_pos haddress]
    refine Meets.andThen (Meets.pure (Meets.ofResult (fun place hplace => ?_) fun _ _ => trivial))
    exact ⟨root, by rw [if_pos haddress], hplace⟩
  · rw [if_neg haddress]
    refine Meets.andThen (Meets.fetchFrom (fun document hdocument => ?_) fun _ _ => trivial)
    refine Meets.ofResult (fun place hplace => ⟨document, ?_, hplace⟩) fun _ _ => trivial
    rw [if_neg haddress]
    exact retentive.offers_of_fetch _ _ _ hdocument

/-- When the target of a reference has been converted, nothing is left to do for it, and no other name is
concerned. -/
theorem convertTopLevel_done (retentive : Retentive σ) (limit : Option Nat) (extent : Extent)
    (name : String) (reference : Reference) (s : Progress σ) :
    Meets (convertTopLevel limit extent root rootAddress name reference) s
      (fun _ s' => s'.Done root rootAddress name reference ∧ ∀ other, other ≠ name →
        s'.graph.topLevels.find? other = s.graph.topLevels.find? other) fun _ _ => True := by
  have htopLevels := topLevels_steady (σ := σ) s.graph.topLevels
  unfold convertTopLevel
  refine ((topLevelPlace_leads retentive reference s).and_preserves
    (topLevelPlace_preserves htopLevels.fetched root rootAddress reference) rfl).seq fun place s₁ hs₁ => ?_
  have hsteady := (leads_steady retentive root rootAddress reference place).and htopLevels
  refine ((toType_binds _ _ place (.inferred name) s₁).and_preserves
    (toType_preserves hsteady _ _ place (.inferred name)) hs₁).seq fun t s₂ hs₂ => ?_
  obtain ⟨hbound, hleads, htop⟩ := hs₂
  have hfind := fun other => s₂.graph.find?_addTopLevel name other t
  refine Meets.onGraph ⟨⟨place, t, hleads, hbound, (hfind name).trans (if_pos rfl)⟩, ?_⟩
  intro other hne
  rw [← htop]
  exact (hfind other).trans (if_neg hne)

/-- When the targets of several references have been converted, nothing is left to do for any of them.

**Proof sketch.** Induction on the references.  The place of an earlier reference and the node of its path
are kept by all that comes later, and its name is, since names are different. -/
theorem convertEntries_done (retentive : Retentive σ) (limit : Option Nat) (extent : Extent)
    {entries : List (String × Reference)} (hnodup : (entries.map Prod.fst).Nodup) (s : Progress σ) :
    Meets (entries.forM fun e => convertTopLevel limit extent root rootAddress e.1 e.2) s
      (fun _ s' => (∀ e ∈ entries, s'.Done root rootAddress e.1 e.2) ∧
        ∀ name, name ∉ entries.map Prod.fst →
          s'.graph.topLevels.find? name = s.graph.topLevels.find? name) fun _ _ => True := by
  induction entries generalizing s with
  | nil => exact Meets.pure ⟨by simp, fun _ _ => rfl⟩
  | cons entry rest ih =>
    obtain ⟨hfirst, hrest⟩ := List.nodup_cons.1 hnodup
    unfold List.forM
    refine (convertTopLevel_done retentive limit extent entry.1 entry.2 s).seq fun _ s₁ hs₁ => ?_
    obtain ⟨⟨place, t, hleads, hbound, hname⟩, hothers⟩ := hs₁
    have hsteady := (leads_steady retentive root rootAddress entry.2 place).and
      (nodeOf_steady place.path t)
    have hkept := convertEntries_preserves hsteady.fetched (toType_preserves hsteady)
      (fun _ _ _ h => h) limit extent root rootAddress rest
    refine ((ih hrest s₁).and_preserves hkept ⟨hleads, hbound⟩).imp ?_
    rintro _ s₂ ⟨⟨hdone, hnames⟩, hleads, hbound⟩
    have hentry : s₂.Done root rootAddress entry.1 entry.2 :=
      ⟨place, t, hleads, hbound, (hnames _ hfirst).trans hname⟩
    refine ⟨List.forall_mem_cons.2 ⟨hentry, hdone⟩, fun name hmem => ?_⟩
    rw [List.map_cons, List.mem_cons, not_or] at hmem
    exact (hnames name hmem.2).trans (hothers name hmem.1)

/-! ## The same run again -/

theorem topLevelPlace_of_leads (h : Leads root rootAddress s.documents reference place) :
    Meets (topLevelPlace root rootAddress reference) s (fun found s' => found = place ∧ s' = s)
      fun _ _ => False := by
  obtain ⟨document, hdocument, hlookup⟩ := h
  unfold topLevelPlace
  have hresult : Meets (ofResult ((Place.ofDocument reference.address document).lookup reference)) s
      (fun found s' => found = place ∧ s' = s) fun _ _ => False := by
    rw [hlookup]
    exact Meets.pure ⟨rfl, rfl⟩
  split at hdocument
  · next haddress =>
    subst hdocument
    rw [if_pos haddress]
    exact Meets.andThen (Meets.pure hresult)
  · next haddress =>
    rw [if_neg haddress]
    refine Meets.andThen (Meets.fetchFrom (fun found hfound => ?_) fun e he => ?_)
    · rw [show DocumentSource.fetch s.documents reference.address = _ from hdocument] at hfound ⊢
      obtain rfl := Except.ok.inj hfound
      exact hresult
    · rw [show DocumentSource.fetch s.documents reference.address = _ from hdocument] at he
      cases he

/-- Naming a node by a name that is known for it already changes nothing. -/
theorem addTopLevel_of_find? {g : TypeGraph} {name : String} {t : NodeId}
    (h : g.topLevels.find? name = some t) : g.addTopLevel name t = g := by
  have hsame : g.topLevels.insert name t = g.topLevels := by
    refine SortedMap.eq_of_find?_eq fun other => ?_
    rw [SortedMap.find?_insert]
    split
    · next heq => rw [heq, h]
    · rfl
  unfold TypeGraph.addTopLevel
  rw [hsame]

/-- Where nothing is left to do, nothing is done. -/
theorem convertTopLevel_of_done {name : String} (h : s.Done root rootAddress name reference)
    (limit : Option Nat) (extent : Extent) :
    Meets (convertTopLevel limit extent root rootAddress name reference) s (fun _ s' => s' = s)
      fun _ _ => False := by
  obtain ⟨place, t, hleads, hbound, hname⟩ := h
  unfold convertTopLevel
  refine (topLevelPlace_of_leads hleads).seq ?_
  rintro found s₁ ⟨rfl, rfl⟩
  refine (convertAt_of_bound hbound limit extent _ 0).seq ?_
  rintro _ _ ⟨rfl, rfl⟩
  refine Meets.onGraph ?_
  dsimp only
  rw [addTopLevel_of_find? hname]

/-- A run that has succeeded succeeds again and changes nothing, even with another limit. -/
theorem convertAll_of_retentive (retentive : Retentive σ) {limit : Option Nat}
    {topLevels : SortedMap String Reference} {s' : Progress σ}
    (hrun : convertAll limit root rootAddress topLevels s = .ok () s') (again : Option Nat) :
    convertAll again root rootAddress topLevels s' = .ok () s' := by
  have hdone : Meets (convertAll limit root rootAddress topLevels) s
      (fun _ s' => ∀ e ∈ topLevels.entries, s'.Done root rootAddress e.1 e.2) fun _ _ => True := by
    refine Meets.andThen (Meets.get ?_)
    exact (convertEntries_done retentive limit _ (nodup_names topLevels) s).imp fun _ _ h => h.1
  have hagain : Meets (convertAll again root rootAddress topLevels) s' (fun _ s'' => s'' = s')
      fun _ _ => False := by
    refine Meets.andThen (Meets.get (Meets.forM (fun e he s₁ hs₁ => ?_) rfl))
    subst hs₁
    exact convertTopLevel_of_done (hdone.of_eq_ok hrun e he) again _
  obtain ⟨_, _, heq, rfl⟩ := hagain.exists_eq_ok
  exact heq

/-- A run that has succeeded changes nothing when it is repeated at once: the same run succeeds again and
leaves the progress as it is, with all nodes, attributes, names and paths, whatever has happened before.
This holds for both kinds of stores, and for each other source that goes on to offer what it has given. -/
theorem convertAll_again (limit : Option Nat) (root : Json) (rootAddress : String)
    (topLevels : SortedMap String Reference) :
    (∀ s s' : Progress MemoryStore, convertAll limit root rootAddress topLevels s = .ok () s' →
      convertAll limit root rootAddress topLevels s' = .ok () s') ∧
    (∀ s s' : Progress DirectoryStore, convertAll limit root rootAddress topLevels s = .ok () s' →
      convertAll limit root rootAddress topLevels s' = .ok () s') ∧
    ∀ (σ : Type) [DocumentSource σ], Retentive σ → ∀ s s' : Progress σ,
      convertAll limit root rootAddress topLevels s = .ok () s' →
        convertAll limit root rootAddress topLevels s' = .ok () s' :=
  ⟨fun _ _ hrun => convertAll_of_retentive MemoryStore.retentive hrun limit,
    fun _ _ hrun => convertAll_of_retentive DirectoryStore.retentive hrun limit,
    fun _ _ retentive _ _ hrun => convertAll_of_retentive retentive hrun limit⟩

/-- With too small a limit the run for the list fails.  With a larger one it then succeeds, and when that is
repeated, nothing changes. -/
theorem convertAll_again_list :
    ∃ e s s', convertAll (some 1) listCorpus.root listCorpus.rootAddress listEntries
        (Progress.start listCorpus.store) = .error e s ∧
      convertAll (some 8) listCorpus.root listCorpus.rootAddress listEntries s = .ok () s' ∧
      convertAll (some 8) listCorpus.root listCorpus.rootAddress listEntries s' = .ok () s' := by
  have hfails : succeeds (convertAll (some 1) listCorpus.root listCorpus.rootAddress listEntries)
      (Progress.start listCorpus.store) = false := by decide +kernel
  have hsucceeds : succeeds (convertAll (some 8) listCorpus.root listCorpus.rootAddress listEntries)
      (progressAfter (convertAll (some 1) listCorpus.root listCorpus.rootAddress listEntries)
        (Progress.start listCorpus.store)) = true := by decide +kernel
  obtain ⟨e, s, hfail⟩ := exists_eq_error hfails
  unfold progressAfter at hsucceeds
  rw [hfail] at hsucceeds
  obtain ⟨_, s', hrun⟩ := exists_eq_ok hsucceeds
  exact ⟨e, s, s', hfail, hrun,
    (convertAll_again (some 8) listCorpus.root listCorpus.rootAddress listEntries).1 s s' hrun⟩

end Conversion

end ShapeGraph
