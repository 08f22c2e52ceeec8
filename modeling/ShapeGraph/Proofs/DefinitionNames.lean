import ShapeGraph.Proofs.Lending
import ShapeGraph.Proofs.SingleDocument

/-!
# Names of definitions

A run converts what it is asked for by ascending name.  The node of a definition goes by the definition's
own name, unless it has been made earlier in the run, for a schema that hands its name down to the
definition; then it may go by that name.

## Main definitions

* `Corpus.startsOf` — the paths from which a run starts.
* `Corpus.LentBefore` — an earlier type of a run hands a name down.

## Main results

* `Conversion.toType_keeps` — a schema with a name of its own.
* `Conversion.convertAll_named` — the names that a run gives.
* `schemaGraph_definition_named` — the names of the definitions of a document.

## Design

A schema that hands a name down is named, not only that there is one: which names a definition may have
can then be read off the document.
-/

set_option autoImplicit false

namespace ShapeGraph

namespace Corpus

/-- The paths from which a run starts for some of its references. -/
def startsOf (c : Corpus) (entries : List (String × Reference)) : List Reference :=
  entries.filterMap fun e => (c.entry? e.2).map Place.path

/-- A schema that is met from a type with a smaller name than `name` has the name `lent` and hands it
down to the schema at a place. -/
def LentBefore (c : Corpus) (topLevels : SortedMap String Reference) (name : String) (place : Place)
    (lent : String) : Prop :=
  ∃ other reference start lender, other < name ∧ topLevels.find? other = some reference ∧
    c.entry? reference = some start ∧ c.Reaches start.path lender.path ∧ c.Located lender ∧
      lender.IsSchema ∧ lender.ownName? = some lent ∧ Relation.TransGen c.Passes lender place

variable {c : Corpus}

theorem mem_startsOf {entries : List (String × Reference)} {e : String × Reference} {place : Place}
    (he : e ∈ entries) (hentry : c.entry? e.2 = some place) : place.path ∈ c.startsOf entries :=
  List.mem_filterMap.2 ⟨e, he, by rw [hentry]; rfl⟩

theorem startsOf_subset {entries entries' : List (String × Reference)} (h : entries ⊆ entries') :
    c.startsOf entries ⊆ c.startsOf entries' :=
  List.filterMap_subset _ h

/-- A name that is handed down is the schema's own or that of another schema. -/
theorem Lends.eq_or_lentBefore {topLevels : SortedMap String Reference}
    {before after : List (String × Reference)} {entry : String × Reference}
    (hentries : topLevels.entries = before ++ entry :: after) {place lender : Place}
    {own name : String} (hown : place.ownName? = some own)
    (h : c.Lends (c.startsOf before) place name lender) :
    name = own ∨ c.LentBefore topLevels entry.1 place name := by
  rcases Relation.reflTransGen_iff_eq_or_transGen.1 h.passes with rfl | hpasses
  · exact Or.inl (Option.some.inj (h.own.symm.trans hown))
  · obtain ⟨path, hstart, hreaches⟩ := h.met
    obtain ⟨e, he, hpath⟩ := List.mem_filterMap.1 hstart
    obtain ⟨start, hentry, rfl⟩ := Option.map_eq_some_iff.1 hpath
    have hless : e.1 < entry.1 := by
      have hascending := topLevels.ascending
      rw [hentries, List.map_append, List.pairwise_append] at hascending
      exact hascending.2.2 e.1 (List.mem_map_of_mem he) entry.1 List.mem_cons_self
    have hfind : topLevels.find? e.1 = some e.2 := by
      rw [SortedMap.find?_eq_some_iff, hentries]
      exact List.mem_append_left _ he
    exact Or.inr ⟨e.1, e.2, start, lender, hless, hfind, hentry, hreaches, h.located, h.is_schema,
      h.own, hpasses⟩

end Corpus

namespace Progress.Named

variable {c : Corpus} {starts pending : List Reference}
  {kept : Reference → NodeId → Names → Prop} {s : Progress MemoryStore}

/-- Naming a node leaves the names that it goes by. -/
theorem addTopLevel (h : s.Named c starts pending kept) (name : String) (t : NodeId) :
    Named c starts pending kept { s with graph := s.graph.addTopLevel name t } :=
  h.setGraph (h.indexed.of_retains (fun _ _ _ hn => hn) rfl) (fun _ ht => ht) fun _ _ => rfl

end Progress.Named

namespace Conversion

open Progress

variable {c : Corpus} {starts : List Reference} {kept : Reference → NodeId → Names → Prop}
  {place : Place} {own : String} {s : Progress MemoryStore}

/-! ## One reference -/

/-- If only inferred names are passed to a schema with a name of its own, then its node goes by that
name, or by one that has been handed down to it before. -/
theorem toType_keeps (hc : c.Consistent) (limit budget : Nat) (hplace : c.SchemaAt place)
    (hown : place.ownName? = some own) {starts' : List Reference} (hsub : starts ⊆ starts')
    (hmet : c.MetFrom starts' place.path) (hs : s.Named c starts [] kept) {hints : Names}
    (hhints : hints.isInferred = true) :
    Meets (toType limit budget place hints) s
      (fun t s' => ∃ name, s'.Named c starts' [] (alsoKept kept place.path t (.given name)) ∧
        (name = own ∨ ∃ lender, c.Lends starts place name lender)) fun _ _ => True := by
  cases hbound : s.nodeOf? place.path with
  | some t =>
    obtain ⟨name, lender, hname, hlends⟩ := hs.lent place t own hplace hbound List.not_mem_nil hown
    unfold Meets
    rw [toType_of_bound hbound]
    exact ⟨name, (hs.mono hsub).keep hbound (hs.intersection place t hplace hbound) hname,
      Or.inr ⟨lender, hlends⟩⟩
  | none =>
    cases budget with
    | zero =>
      refine Meets.andThen (Meets.bound? ?_)
      rw [hbound]
      exact Meets.throw trivial
    | succ budget =>
      refine Meets.andThen (Meets.bound? ?_)
      rw [hbound]
      have hnames : Names.empty.merge (Attributes.namesOf place.fragment place.path hints) =
          .given own := by
        rw [Attributes.namesOf_eq, if_pos hhints, hown]
        rfl
      have hkeeps := convertPlace_keeps (toType_named hc limit budget)
        (toType_remembers limit budget) hplace (hs.mono hsub) hbound hmet (Or.inl hhints)
      rw [hnames] at hkeeps
      exact hkeeps.imp fun t s' hs' => ⟨own, hs', Or.inl rfl⟩

section Runs

variable (hc : c.Consistent)

include hc

theorem convertTopLevel_named (limit : Option Nat) (extent : Extent) {entry : String × Reference}
    (hstart : ∀ place, c.entry? entry.2 = some place → place.path ∈ starts)
    (hs : s.Named c starts [] kept) :
    Meets (convertTopLevel limit extent c.root c.rootAddress entry.1 entry.2) s
      (fun _ s' => s'.Named c starts [] kept) fun _ _ => True := by
  unfold convertTopLevel
  refine ((topLevelPlace_meets hs.documents_eq entry.2).mono (fun _ _ h => h)
    fun _ _ _ => trivial).seq ?_
  rintro place s₁ ⟨rfl, hentry⟩
  obtain ⟨hplace, haddressable⟩ := Corpus.located_entry? hentry
  have hasked : Asked c starts s₁ place (.inferred entry.1) :=
    ⟨⟨place.path, hstart place hentry, .refl⟩, haddressable, Or.inr hplace, Or.inl rfl⟩
  refine (toType_named hc _ _ [] kept place _ s₁ hs hasked).seq fun t s₂ hs₂ => ?_
  exact Meets.onGraph (hs₂.addTopLevel entry.1 t)

/-- The node that gets the name of the entry goes by the schema's own name or by one that has been handed
down to it from an entry before. -/
theorem convertTopLevel_keeps (limit : Option Nat) (extent : Extent) {entry : String × Reference}
    (hentry : c.entry? entry.2 = some place) (hschema : place.IsSchema)
    (hown : place.ownName? = some own) {starts' : List Reference} (hsub : starts ⊆ starts')
    (hstart : place.path ∈ starts') (hs : s.Named c starts [] kept) :
    Meets (convertTopLevel limit extent c.root c.rootAddress entry.1 entry.2) s
      (fun _ s' => ∃ t name, s'.Named c starts' [] (alsoKept kept place.path t (.given name)) ∧
        (name = own ∨ ∃ lender, c.Lends starts place name lender)) fun _ _ => True := by
  obtain ⟨hplace, haddressable⟩ := Corpus.located_entry? hentry
  unfold convertTopLevel
  refine ((topLevelPlace_meets hs.documents_eq entry.2).mono (fun _ _ h => h)
    fun _ _ _ => trivial).seq ?_
  rintro found s₁ ⟨rfl, hfound⟩
  obtain rfl := Option.some.inj (hentry.symm.trans hfound)
  refine (toType_keeps hc _ _ ⟨hplace, hschema, haddressable⟩ hown hsub
    ⟨place.path, hstart, .refl⟩ hs rfl).seq ?_
  rintro t s₂ ⟨name, hs₂, hname⟩
  exact Meets.onGraph ⟨t, name, hs₂.addTopLevel entry.1 t, hname⟩

/-! ## All references -/

theorem convertEntries_named (limit : Option Nat) (extent : Extent)
    {entries : List (String × Reference)} (hstarts : c.startsOf entries ⊆ starts)
    (hs : s.Named c starts [] kept) :
    Meets (entries.forM fun e => convertTopLevel limit extent c.root c.rootAddress e.1 e.2) s
      (fun _ s' => s'.Named c starts [] kept) fun _ _ => True :=
  Meets.forM (fun _ he _ hs => convertTopLevel_named hc limit extent
    (fun _ hentry => hstarts (Corpus.mem_startsOf he hentry)) hs) hs

/-- The node of a schema with a name of its own, for which a run is asked by an entry, goes by a single
given name.  This is its own name or one that has been handed down to it from an entry before.

**Proof sketch.** What is known of names holds for the entries before and, with more starts, for those
after.  The latter leave the names of the schema's node as they are. -/
theorem convertAll_named (limit : Option Nat) {topLevels : SortedMap String Reference}
    (hread : ∀ e ∈ topLevels.entries, e.2.IsReadable) {before after : List (String × Reference)}
    {entry : String × Reference} (hentries : topLevels.entries = before ++ entry :: after)
    (hentry : c.entry? entry.2 = some place) (hschema : place.IsSchema)
    (hown : place.ownName? = some own)
    (hrun : convertAll limit c.root c.rootAddress topLevels (Progress.start c.store) = .ok () s) :
    ∃ t name, s.graph.topLevels.find? entry.1 = some t ∧
      (s.graph.attributes t).names = .given name ∧
        (name = own ∨ ∃ lender, c.Lends (c.startsOf before) place name lender) := by
  have hmem : entry ∈ topLevels.entries := by
    rw [hentries]
    exact List.mem_append_right _ List.mem_cons_self
  have hbefore : c.startsOf before ⊆ c.startsOf topLevels.entries := by
    rw [hentries]
    exact Corpus.startsOf_subset (List.subset_append_left _ _)
  have hafter : c.startsOf after ⊆ c.startsOf topLevels.entries := by
    rw [hentries]
    exact Corpus.startsOf_subset fun _ h => List.mem_append_right _ (List.mem_cons_of_mem _ h)
  have hnamed : Meets (convertAll limit c.root c.rootAddress topLevels) (Progress.start c.store)
      (fun _ s' => ∃ t name, s'.nodeOf? place.path = some t ∧
        (s'.graph.attributes t).names = .given name ∧
          (name = own ∨ ∃ lender, c.Lends (c.startsOf before) place name lender))
      fun _ _ => True := by
    refine Meets.andThen (Meets.get ?_)
    dsimp only
    generalize extentOf (Progress.start c.store).documents c.root c.rootAddress _ = extent
    rw [hentries, List.forM_eq_forM, List.forM_append, List.forM_cons]
    refine (convertEntries_named hc limit extent (List.Subset.refl _)
      (Progress.Named.start c _)).seq fun _ s₁ hs₁ => ?_
    refine (convertTopLevel_keeps hc limit extent hentry hschema hown hbefore
      (Corpus.mem_startsOf hmem hentry) hs₁).seq ?_
    rintro _ s₂ ⟨t, name, hs₂, hname⟩
    refine (convertEntries_named hc limit extent hafter hs₂).imp fun _ s₃ hs₃ => ?_
    obtain ⟨ht, -, hnames⟩ := hs₃.kept_names place.path t _ (Or.inr ⟨rfl, rfl, rfl⟩)
    exact ⟨t, name, ht, hnames, hname⟩
  obtain ⟨t, name, ht, hnames, hname⟩ := hnamed.of_eq_ok hrun
  obtain ⟨found, u, hfound, hu, htop⟩ :=
    ((convertAll_meets hc limit hread).of_eq_ok hrun).2 entry hmem
  obtain rfl := Option.some.inj (hentry.symm.trans hfound)
  obtain rfl := Option.some.inj (ht.symm.trans hu)
  exact ⟨t, name, htop, hnames, hname⟩

end Runs

end Conversion

/-! ## Single documents -/

/-- In the graph of a document with its definitions, a definition that is neither reference nor enum, and
whose name is not that of the root, is known for a node that goes by a single given name.  This is the
definition's title, or its name if it has no title, unless a schema that is met from a type with a
smaller name hands its own name down to the definition; then it may be that name. -/
theorem schemaGraph_definition_named {document schema : Json} {address rootName name : String}
    {limit : Option Nat} {g : TypeGraph}
    (hrun : schemaGraph document address limit true rootName = .ok g)
    (hdefinition : (document.get? "definitions").bind (Json.get? name) = some schema)
    (href : schema.get? "$ref" = none) (henum : schema.get? "enum" = none)
    (hname : name ≠ rootName) :
    ∃ t given, g.topLevels.find? name = some t ∧ (g.attributes t).names = .given given ∧
      (given = (Attributes.textField? schema "title").getD name ∨
        (Corpus.single document address).LentBefore (documentRefs document address true rootName)
          name ⟨document, schema, (Reference.root address).push (.definition name)⟩ given) := by
  obtain ⟨s, hconverted, rfl⟩ := Conversion.exists_run_of_schemaGraph hrun
  have hfind : (documentRefs document address true rootName).find? name =
      some ((Reference.root address).push (.definition name)) := by
    rw [find?_documentRefs, if_neg hname, if_pos rfl, find?_definitionRefs, hdefinition]
    rfl
  have hmem := SortedMap.find?_eq_some_iff.1 hfind
  obtain ⟨before, after, hentries⟩ := List.append_of_mem hmem
  have hc := Corpus.single_consistent document address
  obtain ⟨-, hregistered⟩ := (Conversion.convertAll_meets hc limit
    fun _ he => isReadable_documentRefs he).of_eq_ok hconverted
  obtain ⟨place, -, hentry, -⟩ := hregistered _ hmem
  obtain ⟨schema', hschema', hobject, rfl⟩ := Corpus.definition_of_entry hentry
  obtain rfl := Option.some.inj (hdefinition.symm.trans hschema')
  have hschema : Place.IsSchema
      ⟨document, schema, (Reference.root address).push (.definition name)⟩ := by
    refine ⟨?_, href, henum⟩
    cases schema with
    | obj members => exact ⟨members, rfl⟩
    | null | bool _ | num _ | str _ | arr _ => cases hobject
  have hown : Place.ownName?
      ⟨document, schema, (Reference.root address).push (.definition name)⟩ =
        some ((Attributes.textField? schema "title").getD name) := by
    unfold Place.ownName?
    cases Attributes.textField? schema "title" with
    | some title => rfl
    | none => rfl
  obtain ⟨t, given, ht, hnames, hgiven⟩ := Conversion.convertAll_named hc limit
    (fun _ he => isReadable_documentRefs he) hentries hentry hschema hown hconverted
  refine ⟨t, given, ht, hnames, hgiven.elim Or.inl ?_⟩
  rintro ⟨lender, hlends⟩
  exact hlends.eq_or_lentBefore hentries hown

/-- A definition `Tree` that refers to a definition `Leaf` with a title. -/
def treeDocument : Json :=
  .obj [("definitions", .obj [
    ("Leaf", .obj [("title", .str "A leaf"), ("type", .str "string")]),
    ("Tree", .obj [("oneOf", .arr [.obj [("$ref", .str "#/definitions/Leaf")]])])])]

/-- As the leaf is converted first, it goes by its title. -/
theorem schemaGraph_definition_named_tree :
    ∃ g t, schemaGraph treeDocument "tree.json" defaultLimit true "Root" = .ok g ∧
      g.topLevels.find? "Leaf" = some t ∧ (g.attributes t).names = .given "A leaf" := by
  have hsucceeds : (schemaGraph treeDocument "tree.json" defaultLimit true "Root").isOk = true := by
    decide +kernel
  cases hrun : schemaGraph treeDocument "tree.json" defaultLimit true "Root" with
  | error e =>
    rw [hrun] at hsucceeds
    cases hsucceeds
  | ok g =>
    have hleaf : (treeDocument.get? "definitions").bind (Json.get? "Leaf") =
        some (.obj [("title", .str "A leaf"), ("type", .str "string")]) := rfl
    obtain ⟨t, given, ht, hnames, hgiven⟩ :=
      schemaGraph_definition_named hrun hleaf rfl rfl (by decide)
    refine ⟨g, t, rfl, ht, ?_⟩
    rcases hgiven with rfl | ⟨other, reference, -, -, hless, hfind, -⟩
    · exact hnames
    · have hfirst : ∀ e ∈ (documentRefs treeDocument "tree.json" true "Root").entries,
          ¬ e.1 < "Leaf" := by decide +kernel
      exact absurd hless (hfirst _ (SortedMap.find?_eq_some_iff.1 hfind))

/-- A definition `A` that offers nothing but a definition `B`. -/
def lendingDocument : Json :=
  .obj [("definitions", .obj [
    ("A", .obj [("oneOf", .arr [.obj [("$ref", .str "#/definitions/B")]])]),
    ("B", .obj [("type", .str "string")])])]

/-- A definition does not always have its own name among those of its node: `A` is converted before `B`
and hands its name down. -/
theorem not_forall_definition_own_name :
    ¬ ∀ (document schema : Json) (address rootName name : String) (limit : Option Nat)
      (g : TypeGraph), schemaGraph document address limit true rootName = .ok g →
        (document.get? "definitions").bind (Json.get? name) = some schema →
          schema.get? "$ref" = none → schema.get? "enum" = none → name ≠ rootName →
            ∃ t, g.topLevels.find? name = some t ∧
              (g.attributes t).names.confidence = .given ∧
                (Attributes.textField? schema "title").getD name ∈
                  (g.attributes t).names.candidates := by
  intro h
  have hlent : ((schemaGraph lendingDocument "lending.json" defaultLimit true "Root").toOption.bind
      fun g => (g.topLevels.find? "B").map fun t => (g.attributes t).names) = some (.given "A") := by
    decide +kernel
  cases hrun : schemaGraph lendingDocument "lending.json" defaultLimit true "Root" with
  | error e =>
    rw [hrun] at hlent
    cases hlent
  | ok g =>
    rw [hrun] at hlent
    obtain ⟨t, ht, -, hmem⟩ := h _ _ _ _ "B" _ g hrun rfl rfl rfl (by decide)
    have hnames : (g.attributes t).names = .given "A" := by
      change (g.topLevels.find? "B").map (fun t => (g.attributes t).names) = _ at hlent
      rw [ht] at hlent
      exact Option.some.inj hlent
    rw [hnames] at hmem
    exact absurd (SortedSet.mem_singleton.1 hmem) (by decide)

end ShapeGraph
