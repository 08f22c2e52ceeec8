import ShapeGraph.Proofs.Labelling
import ShapeGraph.Proofs.Runs
import ShapeGraph.Proofs.Sessions

/-!
# Runs give nodes their keys

A conversion that succeeds, however deep schemas may be nested and whatever has been converted before,
gives the node that has the key of the schema.  So each name is known after a run for a node whose key
the documents alone tell.

## Main definitions

* `Conversion.Settles` — a node will have the key of its schema once the path is bound to it.
* `Progress.Knows` — a name is known for the node that has the key of the schema to which its reference
  leads.

## Main results

* `Conversion.convertSchema_labels`, `Conversion.convertEnum_settles`, `Conversion.follow_labels` — the
  kinds of schemas.
* `Conversion.toType_labels` — the conversion at any budget.
* `Conversion.convertAll_labels` — a run.

## Design

The union for an enum with `null` is made before the path of the enum is bound to it.  As nothing else
happens in between, the keys are those of the progress in which the path is bound already.
-/

set_option autoImplicit false

namespace ShapeGraph

open Progress

namespace Conversion

variable {c : Corpus} {recur : Converter MemoryStore} {place : Place}
  {key : NodeId → Option Key} {s : Progress MemoryStore}

/-! ## Schemas -/

/-- The members of the node of a schema. -/
theorem schemaMembers_labels (hrec : LabelsNodes c recur) (h : c.Scene place key s)
    (huntaken : ∀ part, part ≠ .whole → Untaken key place.path part) (attributes : Attributes) :
    Returns (schemaMembers recur place attributes) s fun members s' =>
      ∃ key', s.Relabels c (Owns place.path (· ≠ .whole)) key key' s' ∧
        Collects key' members (c.MemberKey place .whole) := by
  obtain ⟨u, hu⟩ := h.bound
  unfold schemaMembers
  refine (convertAllOf_labels hrec h attributes.names).seq fun all s₁ ⟨key₁, hs₁, hall⟩ => ?_
  have huntaken₁ : ∀ part, part ≠ .whole → Untaken key₁ place.path part :=
    fun part hpart => hs₁.untaken hu (fun hown => hown) (huntaken part hpart)
  have hscene₁ := h.advance hs₁
  refine (convertChoice_labels hrec .oneOf hscene₁ (huntaken₁ _ nofun) attributes.names).seq
    fun one s₂ ⟨key₂, hs₂, hone⟩ => ?_
  have huntaken₂ : ∀ part, part ≠ .whole → part ≠ .choice .oneOf →
      Untaken key₂ place.path part := fun part hpart hother =>
    hs₂.untaken (hs₁.bound _ _ hu) (fun hown => hother hown.2) (huntaken₁ part hpart)
  have hscene₂ := hscene₁.advance hs₂
  refine (convertChoice_labels hrec .anyOf hscene₂ (huntaken₂ _ nofun nofun) attributes.names).seq
    fun any s₃ ⟨key₃, hs₃, hany⟩ => ?_
  have huntaken₃ : ∀ part : Part, part.IsTyped → Untaken key₃ place.path part := by
    intro part hpart
    refine hs₃.untaken (hs₂.bound _ _ (hs₁.bound _ _ hu)) ?_ (huntaken₂ part ?_ ?_)
    · rintro ⟨-, rfl⟩
      exact Part.not_isTyped_choice hpart
    · rintro rfl
      exact Part.not_isTyped_whole hpart
    · rintro rfl
      exact Part.not_isTyped_choice hpart
  refine (convertTypes_labels hrec (hscene₂.advance hs₃) huntaken₃ attributes).seq
    fun types s₄ ⟨key₄, hs₄, htypes⟩ => ?_
  have hmembers := (((hall.mono hs₂.extends_key).union hone).mono hs₃.extends_key).union hany
  refine (orAny_labels hs₄.labels ((hmembers.mono hs₄.extends_key).union htypes)).imp ?_
  rintro members s' ⟨key', hs', hcollects⟩
  refine ⟨key', ?_, hcollects⟩
  have hchoice : ∀ combinator base part, Owns place.path (· = .choice combinator) base part →
      Owns place.path (· ≠ .whole) base part := by
    rintro combinator base part ⟨rfl, rfl⟩
    exact ⟨rfl, nofun⟩
  have htyped : ∀ base part, Owns place.path Part.IsTyped base part →
      Owns place.path (· ≠ .whole) base part := by
    rintro base part ⟨rfl, hpart⟩
    exact ⟨rfl, fun hwhole => Part.not_isTyped_whole (hwhole ▸ hpart)⟩
  exact (((hs₁.disowned.trans (hs₂.weaken (hchoice _))).trans (hs₃.weaken (hchoice _))).trans
    (hs₄.weaken htyped)).trans hs'.disowned

/-- The node of a schema that is neither reference nor enum, the path of which is not bound. -/
theorem convertSchema_labels (hrec : LabelsNodes c recur) (hplace : c.Located place)
    (hschema : place.IsSchema) (h : s.Labels c key) (hfree : s.nodeOf? place.path = none)
    (attributes : Attributes) :
    Returns (convertSchema recur place attributes) s fun t s' =>
      ∃ key', s.Relabels c OwnsNothing key key' s' ∧ c.StandsFor key' place.path t := by
  have hkey : c.PathKey place.path (.part place.path .whole) := hplace.pathKey (.schema hschema)
  have hs₂ := h.begins hfree hkey (Owns place.path (· ≠ .whole))
  have huntaken := fun part hpart => hs₂.others part hpart (h.untaken hfree part)
  rw [convertSchema_eq]
  refine Meets.andThen (Meets.onGraph (Meets.andThen (bind_returns (fun _ => ?_) fun hold => ?_)))
  · have hbound := (nodeOf?_bind s place.path place.path s.graph.nodes.length).trans (if_pos rfl)
    refine (schemaMembers_labels hrec ⟨hplace, hs₂.relabels.labels, _, hbound⟩ huntaken
      attributes).seq fun members s₃ ⟨key₃, hs₃, hmembers⟩ => ?_
    refine (hs₂.fill hs₃ (Corpus.located_iff.1 hplace) hmembers).seq fun _ s₄ ⟨hs₄, ht⟩ => ?_
    refine (hs₄.addAttributes _ attributes).seq fun _ s₅ hs₅ => ?_
    exact Meets.pure ⟨key₃, hs₅.forget hfree, _, hkey, ht⟩
  · -- the path is still free after the node has been made
    change s.nodeOf? place.path = _ at hold
    rw [hfree] at hold
    cases hold

/-! ## Enums -/

/-- The node of a fragment has the key of the schema as soon as the path of the fragment is bound to it,
if not before. -/
def Settles (c : Corpus) (place : Place) (key : NodeId → Option Key) (s : Progress MemoryStore)
    (t : NodeId) (s' : Progress MemoryStore) : Prop :=
  ∃ key', c.StandsFor key' place.path t ∧ (s.Relabels c OwnsNothing key key' s' ∨
    s'.nodeOf? place.path = none ∧
      s.Relabels c OwnsNothing key key' { s' with bound := (place.path, t) :: s'.bound })

/-- The union of the texts of an enum and `null`. -/
theorem enumUnion_settles (hplace : c.Located place) (href : place.fragment.get? "$ref" = none)
    {items : List Json} (hitems : place.fragment.get? "enum" = some (.arr items))
    {texts : List String} (hcases : enumCases items = .ok (texts, true))
    (htexts : texts.isEmpty = false) (h : s.Labels c key) (hfree : s.nodeOf? place.path = none) {enum null : NodeId}
    (henum : key enum = some (.enum texts)) (hnull : key null = some (.primitive .null))
    (attributes : Attributes) :
    Returns (do
      let union ← declare .union
      setMembers union ((SortedSet.singleton enum).insert null)
      addAttributes union attributes
      return union) s (Settles c place key s) := by
  have hkey : c.PathKey place.path (.part place.path .nullable) := by
    have hof := hplace.pathKey (.enum href hitems hcases)
    rwa [Corpus.enumKey, if_neg (by simp [htexts]), if_pos rfl] at hof
  have hbegins := h.begins hfree hkey OwnsNothing
  have hextends := hbegins.relabels.extends_key
  have htextsKey : Corpus.TextsKey place (.enum texts) := ⟨items, texts, true, hitems, hcases, rfl⟩
  have hmembers := (Collects.singleton (hextends _ _ henum) htextsKey
    fun _ hother => htextsKey.unique hother).insert (hextends _ _ hnull)
  -- the path will be bound to the union as soon as it is finished
  have hfilled := hbegins.relabels.fill hbegins.is_new hbegins.key_eq hbegins.waits
    (Corpus.located_iff.1 hplace) hmembers
  have hdone := hfilled.setAttributes s.graph.nodes.length attributes
  have hcombination : ((s.graph.declare .union).2.shape? (s.graph.declare .union).1).any
      Shape.isCombination = true := by
    rw [(TypeGraph.declare_spec h.indexed .union).has_shape]
    rfl
  refine Meets.andThen (Meets.onGraph (Meets.andThen (Meets.setMembers hcombination ?_)))
  refine Meets.andThen (Meets.addAttributes (Meets.pure ?_))
  exact ⟨_, ⟨_, hkey, hbegins.key_eq⟩, Or.inr ⟨hfree, hdone⟩⟩

/-- The node of an enum, the path of which is not bound. -/
theorem convertEnum_settles (hplace : c.Located place) {cases : Json}
    (href : place.fragment.get? "$ref" = none) (hcases : place.fragment.get? "enum" = some cases)
    (h : s.Labels c key) (hfree : s.nodeOf? place.path = none) (attributes : Attributes) :
    Returns (convertEnum cases place.path attributes) s (Settles c place key s) := by
  unfold convertEnum
  cases cases with
  | arr items =>
    dsimp only
    cases hlisted : enumCases items with
    | error case => exact Meets.throw trivial
    | ok result =>
      obtain ⟨texts, nullable⟩ := result
      have hkey := hplace.pathKey (.enum href hcases hlisted)
      have hnullSuits : c.Suits key (.primitive .null) (.primitive .null) := .primitive .null
      obtain ⟨key₁, hs₁, hnull⟩ := h.intern rfl hnullSuits OwnsNothing
      refine Meets.andThen (Meets.onGraph ?_)
      split
      · next honly =>
        rw [Corpus.enumKey, if_pos honly] at hkey
        exact Meets.pure ⟨key₁, ⟨_, hkey, hnull⟩, Or.inl hs₁⟩
      · next hsome =>
        have htextsSuits : c.Suits key₁ (.enum texts) (.enum texts) := .enum texts
        obtain ⟨key₂, hs₂, henum⟩ := hs₁.labels.intern rfl htextsSuits OwnsNothing
        have hs₃ := (hs₁.trans hs₂).setAttributes
          ((s.graph.intern (.primitive .null)).2.intern (.enum texts)).1 attributes
        refine Meets.andThen (Meets.onGraph (Meets.andThen (Meets.addAttributes ?_)))
        cases nullable with
        | true =>
          have htexts : texts.isEmpty = false := by simpa using hsome
          refine (enumUnion_settles hplace href hcases hlisted htexts hs₃.labels hfree henum
            (hs₂.extends_key _ _ hnull) attributes).imp ?_
          rintro t s' ⟨key', ht, hs'⟩
          exact ⟨key', ht, hs'.imp hs₃.trans (And.imp_right hs₃.trans)⟩
        | false =>
          rw [Corpus.enumKey, if_neg (by simp), if_neg (by simp)] at hkey
          exact Meets.pure ⟨key₂, ⟨_, hkey, henum⟩, Or.inl hs₃⟩
  | null | bool _ | num _ | str _ | obj _ => exact Meets.throw trivial

/-! ## References -/

/-- The node of a reference has the key of the target. -/
theorem standsFor_of_leads (hplace : c.Located place) {found : Place} (hleads : c.Leads place found)
    (hfound : c.Located found) {t : NodeId} (ht : c.StandsFor key found.path t) :
    c.StandsFor key place.path t := by
  obtain ⟨k, ⟨same, hsame, hkey⟩, hk⟩ := ht
  rw [Corpus.located_iff.1 hfound] at hsame
  cases hsame
  exact ⟨k, hplace.pathKey (.reference hleads hkey), hk⟩

/-- Other references being followed make no difference to the keys. -/
theorem relabels_withChain {own : Reference → Part → Prop} {key' : NodeId → Option Key}
    {chain chain' : List Reference} {s' : Progress MemoryStore}
    (h : Relabels c own key { s with chain := chain } key' s') :
    s.Relabels c own key key' { s' with chain := chain' } :=
  ⟨⟨h.labels.documents_eq, h.labels.indexed, h.labels.consed, h.labels.suits, h.labels.allocated,
    h.labels.injective, h.labels.named, h.labels.based⟩, h.keeps, h.bound, h.extends_key, h.fresh⟩

theorem labels_withChain (h : s.Labels c key) (chain : List Reference) :
    Labels c key { s with chain := chain } :=
  ⟨h.documents_eq, h.indexed, h.consed, h.suits, h.allocated, h.injective, h.named, h.based⟩

/-- The node of a reference. -/
theorem follow_labels (hc : c.Consistent) (hrec : LabelsNodes c recur) (hplace : c.Located place)
    (haddressable : place.path.IsAddressable) {value : Json}
    (hvalue : place.fragment.get? "$ref" = some value) (h : s.Labels c key) (hints : Names) :
    Returns (follow recur place value hints) s fun t s' =>
      ∃ key', s.Relabels c OwnsNothing key key' s' ∧ c.StandsFor key' place.path t := by
  refine follow_meets hc hplace haddressable h.documents_eq hvalue (fun _ _ _ _ => trivial)
    (fun _ _ _ _ _ => trivial) fun found _ names _ hleads hfound hreach _ _ => ?_
  refine (hrec found names key _ (labels_withChain h _) hreach (Or.inr hfound)).imp ?_
  rintro t s' ⟨key', hs', ht, _⟩
  exact ⟨key', relabels_withChain hs', standsFor_of_leads hplace hleads hfound ht⟩

/-! ## Places -/

/-- The node of the fragment at a place, the path of which is not bound. -/
theorem convertFragment_settles (hc : c.Consistent) (hrec : LabelsNodes c recur)
    (hplace : c.Located place) (haddressable : place.path.IsAddressable) (h : s.Labels c key)
    (hfree : s.nodeOf? place.path = none) (hints : Names) :
    Returns (convertFragment recur place hints) s (Settles c place key s) := by
  rcases place.view with ⟨b, hb⟩ | ⟨value, hvalue⟩ | ⟨cases, href, hcases⟩ | hschema | ⟨hbool, hobj⟩
  · rw [convertFragment_of_bool recur hints hb]
    refine (primitive_labels h .any).imp ?_
    exact fun t s' ⟨key', hs', ht⟩ => ⟨key', ⟨_, hplace.pathKey (.bool hb), ht⟩, Or.inl hs'⟩
  · rw [convertFragment_of_reference recur hints hvalue]
    refine (follow_labels hc hrec hplace haddressable hvalue h hints).imp ?_
    exact fun t s' ⟨key', hs', ht⟩ => ⟨key', ht, Or.inl hs'⟩
  · rw [convertFragment_of_enum recur hints href hcases]
    exact convertEnum_settles hplace href hcases h hfree _
  · rw [convertFragment_of_isSchema recur hints hschema]
    refine (convertSchema_labels hrec hplace hschema h hfree _).imp ?_
    exact fun t s' ⟨key', hs', ht⟩ => ⟨key', ht, Or.inl hs'⟩
  · rw [convertFragment_of_none recur hints hbool hobj]
    exact Meets.throw trivial

/-- The node of the fragment at a place, to which its path is bound afterwards. -/
theorem convertPlace_labels (hc : c.Consistent) (hrec : LabelsNodes c recur)
    (hplace : c.Located place) (haddressable : place.path.IsAddressable) (h : s.Labels c key)
    (hfree : s.nodeOf? place.path = none) (hints : Names) :
    Returns (convertPlace recur place hints) s fun t s' =>
      ∃ key', s.Relabels c OwnsNothing key key' s' ∧ c.StandsFor key' place.path t ∧
        ∃ u, s'.nodeOf? place.path = some u := by
  have hfragment : Returns (if place.fragment.has "$ref" then convertFragment recur place hints
      else withChain [] (convertFragment recur place hints)) s (Settles c place key s) := by
    split
    · exact convertFragment_settles hc hrec hplace haddressable h hfree hints
    · refine Meets.withChain ((convertFragment_settles hc hrec hplace haddressable
        (labels_withChain h []) hfree hints).imp ?_)
      rintro t s' ⟨key', ht, hs'⟩
      exact ⟨key', ht, hs'.imp relabels_withChain (And.imp_right relabels_withChain)⟩
  rw [convertPlace_eq]
  refine hfragment.seq ?_
  rintro t s₁ ⟨key₁, ht, hs₁ | ⟨hfree₁, hs₁⟩⟩
  · refine (hs₁.bind fun _ => ht).seq fun _ s₂ ⟨hs₂, hbound⟩ => ?_
    exact Meets.pure ⟨key₁, hs₂, ht, t, hbound⟩
  · refine Meets.andThen (bind_returns (fun _ => ?_) fun hold => ?_)
    · exact Meets.pure ⟨key₁, hs₁, ht, t, (nodeOf?_bind s₁ _ _ t).trans (if_pos rfl)⟩
    · rw [hfree₁] at hold
      cases hold

/-! ## Recursion -/

/-- The conversion at any budget gives nodes their keys: by induction on the budget.  A path that is
bound already stands for the node that has the key of the schema. -/
theorem toType_labels (hc : c.Consistent) (limit budget : Nat) :
    LabelsNodes c (toType limit budget) := by
  have hbound : ∀ {place : Place} {key : NodeId → Option Key} {s : Progress MemoryStore} {t : NodeId},
      s.Labels c key → place.path.IsAddressable → s.nodeOf? place.path = some t →
        ∃ key', s.Relabels c OwnsNothing key key' s ∧ c.StandsFor key' place.path t ∧
          ∃ u, s.nodeOf? place.path = some u :=
    fun h haddressable ht => ⟨_, h.relabels _, h.named _ _ haddressable ht, _, ht⟩
  induction budget with
  | zero =>
    intro place hints key s h haddressable hready
    exact Meets.boundOr (fun _ => hbound h haddressable) fun _ => Meets.throw trivial
  | succ budget ih =>
    intro place hints key s h haddressable hready
    refine Meets.boundOr (fun _ => hbound h haddressable) fun hpath => ?_
    have hplace := Progress.resolve_bound hready hpath
    exact convertPlace_labels hc ih hplace haddressable h hpath hints

end Conversion

/-! ## Runs -/

/-- The name is known for the node that has the key of the schema to which the reference leads. -/
def Progress.Knows (c : Corpus) (key : NodeId → Option Key) (s : Progress MemoryStore) (name : String)
    (reference : Reference) : Prop :=
  ∃ place t, c.entry? reference = some place ∧ s.graph.topLevels.find? name = some t ∧
    c.StandsFor key place.path t

namespace Conversion

variable {c : Corpus} {key : NodeId → Option Key} {s : Progress MemoryStore}

/-- The place that a named reference leads to. -/
theorem topLevelPlace_returns (h : s.Labels c key) (reference : Reference) :
    Returns (topLevelPlace c.root c.rootAddress reference) s fun place s' =>
      s' = s ∧ c.entry? reference = some place := by
  unfold topLevelPlace Corpus.entry?
  refine Meets.document h.documents_eq (fun document hdocument => ?_) fun _ => trivial
  rw [hdocument, Option.bind_some]
  refine Meets.ofResult (fun place hplace => ⟨rfl, ?_⟩) fun _ _ => trivial
  rw [hplace]
  rfl

/-- The target of a named reference is converted, and its node gets the name. -/
theorem convertTopLevel_labels (hc : c.Consistent) (limit : Option Nat) (extent : Extent)
    (h : s.Labels c key) (name : String) (reference : Reference) :
    Returns (convertTopLevel limit extent c.root c.rootAddress name reference) s fun _ s' =>
      ∃ key', s'.Labels c key' ∧ (∀ t k, key t = some k → key' t = some k) ∧
        s'.Knows c key' name reference ∧ ∀ other, other ≠ name →
          s'.graph.topLevels.find? other = s.graph.topLevels.find? other := by
  unfold convertTopLevel
  refine (topLevelPlace_returns h reference).seq fun place s₁ ⟨hs₁, hentry⟩ => ?_
  subst hs₁
  obtain ⟨hlocated, haddressable⟩ := Corpus.located_entry? hentry
  have htype := toType_labels hc (limit.getD (levelsLeft limit extent 0)) (levelsLeft limit extent 0)
    place (.inferred name) key s₁ h haddressable (Or.inr hlocated)
  have hsteady := topLevels_steady (σ := MemoryStore) s₁.graph.topLevels
  have hnames := toType_preserves hsteady (limit.getD (levelsLeft limit extent 0))
    (levelsLeft limit extent 0) place (.inferred name)
  refine (htype.and_preserves hnames rfl).seq
    fun t s' ⟨⟨key', hs', ht, _⟩, hsame⟩ => Meets.onGraph ?_
  have hfind := fun other => s'.graph.find?_addTopLevel name other t
  have hl := hs'.labels
  refine ⟨key', ⟨hl.documents_eq, hl.indexed, hl.consed, hl.suits, hl.allocated, hl.injective, hl.named,
    hl.based⟩, hs'.extends_key, ⟨place, t, hentry, (hfind name).trans (if_pos rfl), ht⟩, ?_⟩
  intro other hother
  rw [← hsame]
  exact (hfind other).trans (if_neg hother)

/-- The targets of several references are converted one after another.

**Proof sketch.** Induction on the references.  Later conversions take no key away, and as names are
different, they leave the name of an earlier reference to its node. -/
theorem convertEntries_labels (hc : c.Consistent) (limit : Option Nat) (extent : Extent)
    {entries : List (String × Reference)} (hnodup : (entries.map Prod.fst).Nodup)
    (h : s.Labels c key) :
    Returns (entries.forM fun e => convertTopLevel limit extent c.root c.rootAddress e.1 e.2) s
      fun _ s' => ∃ key', s'.Labels c key' ∧ (∀ t k, key t = some k → key' t = some k) ∧
        (∀ e ∈ entries, s'.Knows c key' e.1 e.2) ∧ ∀ name, name ∉ entries.map Prod.fst →
          s'.graph.topLevels.find? name = s.graph.topLevels.find? name := by
  induction entries generalizing key s with
  | nil => exact Meets.pure ⟨key, h, fun _ _ hk => hk, by simp, fun _ _ => rfl⟩
  | cons entry rest ih =>
    obtain ⟨hfirst, hrest⟩ := List.nodup_cons.1 hnodup
    unfold List.forM
    refine (convertTopLevel_labels hc limit extent h entry.1 entry.2).seq ?_
    rintro _ s₁ ⟨key₁, hs₁, hkey₁, hknows, hothers₁⟩
    refine (ih hrest hs₁).imp ?_
    rintro _ s₂ ⟨key₂, hs₂, hkey₂, hall, hothers₂⟩
    refine ⟨key₂, hs₂, fun t k hk => hkey₂ t k (hkey₁ t k hk), ?_, fun name hname => ?_⟩
    · refine List.forall_mem_cons.2 ⟨?_, hall⟩
      obtain ⟨place, t, hentry, hname, ht⟩ := hknows
      exact ⟨place, t, hentry, (hothers₂ _ hfirst).trans hname, ht.mono hkey₂⟩
    · rw [List.map_cons, List.mem_cons, not_or] at hname
      exact (hothers₂ name hname.2).trans (hothers₁ name hname.1)

/-- After a run that succeeds, all nodes have keys, and each name is known for the node that has the key
of the schema to which its reference leads. -/
theorem convertAll_labels (hc : c.Consistent) (limit : Option Nat)
    (topLevels : SortedMap String Reference) :
    Returns (convertAll limit c.root c.rootAddress topLevels) (Progress.start c.store) fun _ s =>
      ∃ key, s.Labels c key ∧ ∀ e ∈ topLevels.entries, s.Knows c key e.1 e.2 := by
  refine Meets.andThen (Meets.get ?_)
  refine (convertEntries_labels hc limit _ (nodup_names topLevels) (.start c)).imp ?_
  rintro _ s ⟨key, hs, -, hall, -⟩
  exact ⟨key, hs, hall⟩

end Conversion

end ShapeGraph
