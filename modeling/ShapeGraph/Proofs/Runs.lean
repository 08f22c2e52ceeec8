import ShapeGraph.Conversion.Run
import ShapeGraph.Proofs.Soundness

/-!
# What a run of a conversion gives

A run converts the targets of named references one after another.  When it succeeds, each name is
known for the node of its target, and every path that stands for a node stands for what its schema
calls for.  When it fails, the cause lies in something that can be met from one of the references, or
schemas are nested too deep.

## Main definitions

* `Corpus.Accepts` — a reference resolves, and all that can be met from it has the right shape.
* `Progress.Registered` — a name is known for the node of the place that its reference leads to.

## Main results

* `Conversion.convertAll_meets` — the two outcomes of a run.
* `Conversion.convertAll_describes` — what the paths and names stand for after a run.
* `Conversion.convertAll_no_logicFault` — no run ends with a fault of logic.
-/

set_option autoImplicit false

namespace ShapeGraph

/-- The reference resolves, and all that can be met from its target has the right shape. -/
def Corpus.Accepts (c : Corpus) (reference : Reference) : Prop :=
  ∃ place, c.entry? reference = some place ∧ ∀ path, c.Reaches place.path path → c.WellShaped path

/-- The name is known for the node that the target of the reference stands for. -/
def Progress.Registered (c : Corpus) (s : Progress MemoryStore) (name : String)
    (reference : Reference) : Prop :=
  ∃ place t, c.entry? reference = some place ∧ s.nodeOf? place.path = some t ∧
    s.graph.topLevels.find? name = some t

/-- All steps of the reference lead somewhere in the text of a schema. -/
def Reference.IsReadable (reference : Reference) : Prop :=
  ∀ e ∈ reference.elements, e.isAddressable = true

/-- A new name is known for its node, and all others as before. -/
theorem TypeGraph.find?_addTopLevel (g : TypeGraph) (name other : String) (t : NodeId) :
    (g.addTopLevel name t).topLevels.find? other =
      if other = name then some t else g.topLevels.find? other :=
  SortedMap.find?_insert g.topLevels name other t

namespace Conversion

open Progress

variable {c : Corpus} {s s' : Progress MemoryStore}

/-! ## One reference -/

/-- The place that a named reference leads to.  A reference that leads nowhere is no cycle. -/
theorem topLevelPlace_meets (hs : s.documents = c.store) (reference : Reference) :
    Meets (topLevelPlace c.root c.rootAddress reference) s
      (fun place s' => s' = s ∧ c.entry? reference = some place)
      (fun e _ => c.entry? reference = none ∧ e.isCycle = false ∧
        (reference.IsReadable → e.isLogicFault = false)) := by
  unfold topLevelPlace Corpus.entry?
  refine Meets.document hs (fun document hdocument => ?_) fun hmissing => ⟨?_, rfl, fun _ => rfl⟩
  · rw [hdocument, Option.bind_some]
    refine Meets.ofResult (fun place hplace => ⟨rfl, ?_⟩) fun e he => ⟨?_, ?_, fun hread => ?_⟩
    · rw [hplace]
      rfl
    · rw [he]
      rfl
    · exact (Place.lookup_error he).2.1
    · exact (Place.lookup_error he).2.2 hread
  · rw [hmissing]
    rfl

/-- What holds after the target of a named reference has been converted. -/
structure TopLevelSpec (c : Corpus) (s : Progress MemoryStore) (name : String)
    (reference : Reference) (s' : Progress MemoryStore) : Prop where
  sound : s'.Sound c []
  chain_eq : s'.chain = []
  retains : s.Retains s'
  registered : s'.Registered c name reference
  others : ∀ other, other ≠ name → s'.graph.topLevels.find? other = s.graph.topLevels.find? other

/-- The failure is no fault of logic, and if the reference resolves, something that is met from its target is
to blame. -/
def Rejects (c : Corpus) (reference : Reference) (e : Failure) : Prop :=
  e.isLogicFault = false ∧ ∀ place, c.entry? reference = some place → c.Blames place.path e

/-- A reference is not accepted if it is what a run fails at, unless schemas are nested too deep. -/
theorem Rejects.not_accepts {reference : Reference} {e : Failure} (h : Rejects c reference e)
    (hdepth : e.isDepthFault = false) : ¬ c.Accepts reference := by
  rintro ⟨place, hentry, hshaped⟩
  obtain ⟨-, hdeep | ⟨culprit, hreaches, hexplains⟩⟩ := h.2 place hentry
  · rw [hdepth] at hdeep
    cases hdeep
  · exact hexplains.misshapen (hshaped culprit hreaches)

/-- The target of a named reference is converted, and its node is registered. -/
theorem convertTopLevel_meets (hc : c.Consistent) (limit : Option Nat) (extent : Extent)
    (hs : s.Sound c []) (hchain : s.chain = []) (name : String) {reference : Reference}
    (hread : reference.IsReadable) :
    Meets (convertTopLevel limit extent c.root c.rootAddress name reference) s
      (fun _ s' => TopLevelSpec c s name reference s') (fun e _ => Rejects c reference e) := by
  unfold convertTopLevel
  refine Meets.seq ((topLevelPlace_meets hs.documents_eq reference).mono (fun _ _ h => h) ?_)
    fun place s₁ ⟨hs₁, hentry⟩ => ?_
  · rintro e _ ⟨hnone, -, he⟩
    refine ⟨he hread, fun place hplace => ?_⟩
    rw [hnone] at hplace
    cases hplace
  subst hs₁
  obtain ⟨hlocated, haddressable⟩ := Corpus.located_entry? hentry
  have hready : c.Ready s₁ place := by
    refine ⟨haddressable, ?_, Or.inr hlocated⟩
    rw [hchain]
    exact fun path hpath => absurd hpath List.not_mem_nil
  refine Meets.seq ((toType_sound hc _ _ [] place _ s₁ hs hready).mono (fun _ _ h => h) ?_)
    fun t s₂ ⟨hs₂, ht⟩ => ?_
  · rintro e _ hblames
    refine ⟨hblames.1, fun other hother => ?_⟩
    rw [hentry] at hother
    cases hother
    exact hblames
  · have hregistered := fun other => s₂.graph.find?_addTopLevel name other t
    have hretains : s₂.graph.Retains (s₂.graph.addTopLevel name t) := fun _ _ _ hn => hn
    refine Meets.onGraph ⟨hs₂.sound.setGraph hretains (hs₂.sound.indexed.of_retains hretains rfl),
      hs₂.grows.chain_eq.trans hchain, ⟨hs₂.retains.graph, hs₂.retains.bound⟩,
      ⟨place, t, hentry, ht, ?_⟩, fun other hother => ?_⟩
    · exact (hregistered name).trans (if_pos rfl)
    · rw [← hs₂.grows.topLevels_eq]
      exact (hregistered other).trans (if_neg hother)

/-! ## All references -/

/-- The targets of several references are converted one after another.

**Proof sketch.** Induction on the references.  Later conversions lose nothing, and as names are
different, they leave the name of an earlier reference registered. -/
theorem convertEntries_meets (hc : c.Consistent) (limit : Option Nat) (extent : Extent)
    {entries : List (String × Reference)} (hnodup : (entries.map Prod.fst).Nodup)
    (hread : ∀ e ∈ entries, e.2.IsReadable) (hs : s.Sound c []) (hchain : s.chain = []) :
    Meets (entries.forM fun e => convertTopLevel limit extent c.root c.rootAddress e.1 e.2) s
      (fun _ s' => s'.Sound c [] ∧ s.Retains s' ∧ (∀ e ∈ entries, s'.Registered c e.1 e.2) ∧
        ∀ name, name ∉ entries.map Prod.fst →
          s'.graph.topLevels.find? name = s.graph.topLevels.find? name)
      (fun e _ => ∃ entry ∈ entries, Rejects c entry.2 e) := by
  induction entries generalizing s with
  | nil =>
    exact Meets.pure ⟨hs, ⟨fun _ _ _ hn => hn, fun _ _ hn => hn⟩, by simp, fun _ _ => rfl⟩
  | cons entry rest ih =>
    obtain ⟨hfirst, hrest⟩ := List.nodup_cons.1 hnodup
    obtain ⟨hentry, hreadRest⟩ := List.forall_mem_cons.1 hread
    unfold List.forM
    refine Meets.seq ((convertTopLevel_meets hc limit extent hs hchain entry.1 hentry).mono
      (fun _ _ h => h) fun e _ he => ⟨entry, List.mem_cons_self, he⟩) fun _ s₁ hs₁ => ?_
    refine (ih hrest hreadRest hs₁.sound hs₁.chain_eq).mono ?_ ?_
    · rintro _ s₂ ⟨hs₂, hretains, hregistered, hothers⟩
      refine ⟨hs₂, hs₁.retains.trans hretains, ?_, fun name hname => ?_⟩
      · refine List.forall_mem_cons.2 ⟨?_, hregistered⟩
        obtain ⟨place, t, hplace, ht, hname⟩ := hs₁.registered
        exact ⟨place, t, hplace, hretains.bound _ _ ht, (hothers _ hfirst).trans hname⟩
      · rw [List.map_cons, List.mem_cons, not_or] at hname
        exact (hothers name hname.2).trans (hs₁.others name hname.1)
    · rintro e _ ⟨other, hother, he⟩
      exact ⟨other, List.mem_cons_of_mem _ hother, he⟩

/-- The names of a map are different. -/
theorem nodup_names (m : SortedMap String Reference) : (m.entries.map Prod.fst).Nodup := by
  refine m.ascending.imp fun {a b} h => ?_
  rintro rfl
  exact String.lt_irrefl a h

/-- The two outcomes of a run. -/
theorem convertAll_meets (hc : c.Consistent) (limit : Option Nat)
    {topLevels : SortedMap String Reference} (hread : ∀ e ∈ topLevels.entries, e.2.IsReadable) :
    Meets (convertAll limit c.root c.rootAddress topLevels) (Progress.start c.store)
      (fun _ s => s.Sound c [] ∧ ∀ e ∈ topLevels.entries, s.Registered c e.1 e.2)
      (fun e _ => ∃ entry ∈ topLevels.entries, Rejects c entry.2 e) := by
  unfold convertAll
  refine Meets.andThen (Meets.get ?_)
  refine (convertEntries_meets hc limit _ (nodup_names topLevels) hread (Sound.start c) rfl).imp ?_
  rintro _ s ⟨hs, -, hregistered, -⟩
  exact ⟨hs, hregistered⟩

/-- A reference that has been read can be followed. -/
theorem isReadable_parse {reference : Reference}
    (h : ∃ base text, reference = .parse base text) : reference.IsReadable := by
  obtain ⟨base, text, rfl⟩ := h
  exact fun e he => Reference.isAddressable_of_mem_parse he

/-! ## Main results -/

/-- After a run that succeeds, each name is known for the node of the place that its reference leads
to, and every path that leads somewhere in the text and stands for a node stands for what the schema
there calls for. -/
theorem convertAll_describes (hc : c.Consistent) (limit : Option Nat)
    {topLevels : SortedMap String Reference}
    (hparsed : ∀ e ∈ topLevels.entries, ∃ base text, e.2 = .parse base text)
    (hrun : convertAll limit c.root c.rootAddress topLevels (Progress.start c.store) = .ok () s) :
    (∀ e ∈ topLevels.entries, s.Registered c e.1 e.2) ∧
      ∀ path t, path.IsAddressable → s.nodeOf? path = some t →
        ∃ place, c.place? path = some place ∧ c.Describes s place t := by
  obtain ⟨hs, hregistered⟩ :=
    (convertAll_meets hc limit fun e he => isReadable_parse (hparsed e he)).of_eq_ok hrun
  refine ⟨hregistered, fun path t haddressable ht => ?_⟩
  obtain ⟨place, hplace, -, hpending | hdescribes⟩ := hs.described path t haddressable ht
  · cases hpending
  · exact ⟨place, hplace, hdescribes⟩

/-- A list: its elements are described in another document, which refers back to the list. -/
def listCorpus : Corpus where
  root := .obj [("properties", .obj [
    ("value", .obj [("$ref", .str "value.json#")]),
    ("next", .obj [("$ref", .str "#")])])]
  rootAddress := "list.json"
  store := ⟨⟨[
    ("list.json", .obj [("properties", .obj [
      ("value", .obj [("$ref", .str "value.json#")]),
      ("next", .obj [("$ref", .str "#")])])]),
    ("value.json", .obj [("oneOf", .arr [
      .obj [("enum", .arr [.str "leaf", .null])],
      .obj [("$ref", .str "list.json#")]])])], by decide⟩⟩

/-- The root of the list. -/
def listEntries : SortedMap String Reference := ⟨[("List", .parse "list.json" "#")], by simp⟩

theorem listCorpus_consistent : listCorpus.Consistent := by
  intro document hdocument
  have hfind : listCorpus.store.documents.find? "list.json" = some listCorpus.root := rfl
  rw [show listCorpus.rootAddress = "list.json" from rfl, hfind] at hdocument
  exact (Option.some.inj hdocument).symm

theorem listEntries_parsed : ∀ e ∈ listEntries.entries, ∃ base text, e.2 = .parse base text := by
  intro e he
  rw [List.mem_singleton.1 he]
  exact ⟨"list.json", "#", rfl⟩

/-- The list is converted, although it refers to itself directly and through another document. -/
theorem convertAll_describes_list :
    ∃ s, convertAll (some 8) listCorpus.root listCorpus.rootAddress listEntries
        (Progress.start listCorpus.store) = .ok () s ∧
      (∀ e ∈ listEntries.entries, s.Registered listCorpus e.1 e.2) ∧
        ∀ path t, path.IsAddressable → s.nodeOf? path = some t →
          ∃ place, listCorpus.place? path = some place ∧ listCorpus.Describes s place t := by
  have hsucceeds : succeeds
      (convertAll (some 8) listCorpus.root listCorpus.rootAddress listEntries)
      (Progress.start listCorpus.store) = true := by decide +kernel
  obtain ⟨_, s, hrun⟩ := exists_eq_ok hsucceeds
  exact ⟨s, hrun, convertAll_describes listCorpus_consistent (some 8) listEntries_parsed hrun⟩

/-- A run never fails with a fault of logic. -/
theorem convertAll_no_logicFault (hc : c.Consistent) (limit : Option Nat)
    {topLevels : SortedMap String Reference}
    (hparsed : ∀ e ∈ topLevels.entries, ∃ base text, e.2 = .parse base text) {e : Failure}
    (hrun : convertAll limit c.root c.rootAddress topLevels (Progress.start c.store) = .error e s) :
    e.isLogicFault = false := by
  obtain ⟨entry, -, he, -⟩ :=
    (convertAll_meets hc limit fun e he => isReadable_parse (hparsed e he)).of_eq_error hrun
  exact he

/-- With too small a limit, the conversion of the list fails, but not with a fault of logic. -/
theorem convertAll_no_logicFault_list :
    ∃ e s, convertAll (some 1) listCorpus.root listCorpus.rootAddress listEntries
      (Progress.start listCorpus.store) = .error e s ∧ e.isLogicFault = false := by
  have hfails : succeeds
      (convertAll (some 1) listCorpus.root listCorpus.rootAddress listEntries)
      (Progress.start listCorpus.store) = false := by decide +kernel
  obtain ⟨e, s, hrun⟩ := exists_eq_error hfails
  exact ⟨e, s, hrun, convertAll_no_logicFault listCorpus_consistent (some 1) listEntries_parsed hrun⟩

end Conversion

end ShapeGraph
