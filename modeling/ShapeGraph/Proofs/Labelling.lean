import ShapeGraph.Proofs.Frames
import ShapeGraph.Proofs.Labels

/-!
# The parts of a schema give nodes their keys

Whatever has been converted before, the conversion of each part of a schema, if it succeeds, gives the
nodes that have the keys that the documents call for, and all nodes that it makes get keys of their own.

## Main definitions

* `Conversion.LabelsNodes` — the conversion of inner schemas does so.
* `Corpus.Scene` — the conversion of a schema has reached one of its parts.

## Main results

* `Conversion.convertAllOf_labels`, `Conversion.convertChoice_labels` — what combinators contribute.
* `Conversion.convertObject_labels`, `Conversion.convertArray_labels` — the nodes of an object and an
  array type.
* `Conversion.convertTypes_labels` — the node for what the `type` field names.

## Design

No part of a schema is converted twice, because the path of the schema is bound by then.  The
hypotheses say so by requiring that nothing has been made yet for certain parts, and the results say
for which parts something may have been made since.
-/

set_option autoImplicit false

namespace ShapeGraph

open Progress

/-- Something is made for the type that is converted at a path. -/
def Part.IsAt (path : Reference) (part : Part) : Prop := part = .object path ∨ part = .positions path

theorem Part.IsAt.path_eq {path other : Reference} {part : Part} (h : part.IsAt path)
    (hother : part.IsAt other) : path = other := by
  rcases h with rfl | rfl <;> rcases hother with hother | hother <;> cases hother <;> rfl

/-- Something is made for one of the types or for all of them together. -/
def Part.IsTyped (part : Part) : Prop := part = .types ∨ ∃ path, part.IsAt path

theorem Part.not_isTyped_whole : ¬ Part.IsTyped .whole := by
  rintro (hpart | ⟨path, hpart | hpart⟩) <;> cases hpart

theorem Part.not_isTyped_choice {combinator : Combinator} :
    ¬ Part.IsTyped (.choice combinator) := by
  rintro (hpart | ⟨path, hpart | hpart⟩) <;> cases hpart

/-- The conversion of the schema at a place has reached one of its parts. -/
structure Corpus.Scene (c : Corpus) (place : Place) (key : NodeId → Option Key)
    (s : Progress MemoryStore) : Prop where
  located : c.Located place
  labels : s.Labels c key
  bound : ∃ t, s.nodeOf? place.path = some t

theorem Corpus.Scene.advance {c : Corpus} {place : Place} {key key' : NodeId → Option Key}
    {s s' : Progress MemoryStore} {own : Reference → Part → Prop} (h : c.Scene place key s)
    (hs : s.Relabels c own key key' s') : c.Scene place key' s' :=
  ⟨h.located, hs.labels, h.bound.imp fun t ht => hs.bound _ t ht⟩

namespace Conversion

variable {c : Corpus} {recur : Converter MemoryStore} {place : Place} {path : Reference}
  {key : NodeId → Option Key} {s : Progress MemoryStore}

/-- If the conversion of a schema gives a node, it is the one that has the key of the schema, and the
path is bound then. -/
def LabelsNodes (c : Corpus) (recur : Converter MemoryStore) : Prop :=
  ∀ (place : Place) (hints : Names) (key : NodeId → Option Key) (s : Progress MemoryStore),
    s.Labels c key → place.path.IsAddressable →
      ((∃ t, s.nodeOf? place.path = some t) ∨ c.Located place) →
        Returns (recur place hints) s fun t s' => ∃ key', s.Relabels c OwnsNothing key key' s' ∧
          c.StandsFor key' place.path t ∧ ∃ u, s'.nodeOf? place.path = some u

/-! ## Nodes -/

theorem primitive_labels (h : s.Labels c key) (kind : Primitive) :
    Returns (primitive kind) s fun t s' =>
      ∃ key', s.Relabels c OwnsNothing key key' s' ∧ key' t = some (.primitive kind) :=
  h.intern_returns rfl (.primitive kind)

theorem map_labels (h : s.Labels c key) {values : NodeId} {k : Key} (hvalues : key values = some k) :
    Returns (onGraph (·.map values)) s fun t s' =>
      ∃ key', s.Relabels c OwnsNothing key key' s' ∧ key' t = some (.map k) := by
  have hsuits : c.Suits key (.map values) (.map k) := .map hvalues
  exact h.intern_returns rfl hsuits

/-- Some members, or the node of any type if there are none. -/
theorem orAny_labels (h : s.Labels c key) {members : SortedSet NodeId} {condition : Key → Prop}
    (hmembers : Collects key members condition) :
    Returns (orAny members) s fun members s' => ∃ key', s.Relabels c OwnsNothing key key' s' ∧
      Collects key' members (OrElse condition (.primitive .any)) := by
  unfold orAny
  split
  · next hempty =>
    refine (primitive_labels h .any).seq fun any s₁ ⟨key₁, hs₁, hany⟩ => ?_
    exact Meets.pure ⟨key₁, hs₁, hmembers.orElse_singleton hempty hany⟩
  · next hsome => exact Meets.pure ⟨key, h.relabels _, hmembers.orElse hsome _⟩

/-- Some members, or a map of anything if there are none. -/
theorem orAnyMap_labels (h : s.Labels c key) {members : SortedSet NodeId} {condition : Key → Prop}
    (hmembers : Collects key members condition) :
    Returns (orAnyMap members) s fun members s' => ∃ key', s.Relabels c OwnsNothing key key' s' ∧
      Collects key' members (OrElse condition (.map (.primitive .any))) := by
  unfold orAnyMap
  split
  · next hempty =>
    refine (primitive_labels h .any).seq fun any s₁ ⟨key₁, hs₁, hany⟩ => ?_
    refine (map_labels hs₁.labels hany).seq fun map s₂ ⟨key₂, hs₂, hmap⟩ => ?_
    exact Meets.pure ⟨key₂, hs₁.trans hs₂, hmembers.orElse_singleton hempty hmap⟩
  · next hsome => exact Meets.pure ⟨key, h.relabels _, hmembers.orElse hsome _⟩

/-! ## Lists of schemas -/

/-- The nodes of some schemas that stand side by side. -/
theorem convertSiblings_labels (hrec : LabelsNodes c recur) {parent : Place}
    {step : Nat → PathElement} (hstep : ∀ i, (step i).isAddressable = true) {i : Nat}
    {schemas : List Json}
    (hlocated : ∀ j schema, schemas[j]? = some schema →
      c.Located ⟨parent.document, schema, parent.path.push (step (i + j))⟩)
    (h : s.Labels c key) (hints : Names) :
    Returns (convertSiblings recur parent step hints i schemas) s fun members s' =>
      ∃ key', s.Relabels c OwnsNothing key key' s' ∧ Collects key' members fun k =>
        ∃ j < schemas.length, c.PathKey (parent.path.push (step (i + j))) k := by
  induction schemas generalizing i key s with
  | nil =>
    refine Meets.pure ⟨key, h.relabels _, .empty fun k => ?_⟩
    rintro ⟨j, hj, -⟩
    cases hj
  | cons schema rest ih =>
    refine (hrec _ hints key s h (Reference.isAddressable_push.2 (hstep i))
      (Or.inr (hlocated 0 schema rfl))).seq fun t s₁ ⟨key₁, hs₁, ⟨k, hpath, hk⟩, _⟩ => ?_
    have hrest : ∀ j schema, rest[j]? = some schema →
        c.Located ⟨parent.document, schema, parent.path.push (step (i + 1 + j))⟩ := by
      intro j schema hschema
      have hnext := hlocated (j + 1) schema hschema
      rwa [show i + (j + 1) = i + 1 + j by omega] at hnext
    refine (ih hrest hs₁.labels).seq fun others s₂ ⟨key₂, hs₂, hothers⟩ => ?_
    refine Meets.pure ⟨key₂, hs₁.trans hs₂, (hothers.insert (hs₂.extends_key _ _ hk)).congr ?_⟩
    intro other
    constructor
    · rintro ⟨_ | j, hj, hother⟩
      · exact Or.inl (hpath.unique hother)
      · rw [show i + (j + 1) = i + 1 + j by omega] at hother
        exact Or.inr ⟨j, Nat.lt_of_succ_lt_succ hj, hother⟩
    · rintro (rfl | ⟨j, hj, hother⟩)
      · exact ⟨0, Nat.succ_pos _, hpath⟩
      · rw [show i + 1 + j = i + (j + 1) by omega] at hother
        exact ⟨j + 1, Nat.succ_lt_succ hj, hother⟩

/-- The nodes of the schemas under a combinator. -/
theorem convertCases_labels (hrec : LabelsNodes c recur) {combinator : Combinator} {cases : Json}
    (hcases : place.fragment.get? combinator.keyword = some cases) (h : c.Scene place key s)
    (hints : Names) :
    Returns (convertCases recur place combinator cases hints) s fun members s' =>
      ∃ key', s.Relabels c OwnsNothing key key' s' ∧
        Collects key' members (c.BranchKey place combinator) := by
  unfold convertCases
  cases cases with
  | arr schemas =>
    have hlocated : ∀ j schema, schemas[j]? = some schema →
        c.Located ⟨place.document, schema, place.path.push (.branch combinator (0 + j))⟩ := by
      intro j schema hschema
      rw [Nat.zero_add]
      exact h.located.branch hcases hschema
    refine (convertSiblings_labels hrec (fun _ => rfl) hlocated h.labels hints).imp ?_
    rintro members s' ⟨key', hs', hmembers⟩
    refine ⟨key', hs', hmembers.congr fun k => ?_⟩
    simp only [Corpus.BranchKey, hcases, Option.some.injEq, Json.arr.injEq, Nat.zero_add]
    exact ⟨fun ⟨_, j, heq, hj, hk⟩ => ⟨j, heq ▸ hj, hk⟩, fun ⟨j, hj, hk⟩ => ⟨_, j, rfl, hj, hk⟩⟩
  | null | bool _ | num _ | str _ | obj _ => exact Meets.throw trivial

/-- What `allOf` contributes. -/
theorem convertAllOf_labels (hrec : LabelsNodes c recur) (h : c.Scene place key s) (hints : Names) :
    Returns (convertAllOf recur place hints) s fun members s' =>
      ∃ key', s.Relabels c OwnsNothing key key' s' ∧
        Collects key' members (c.BranchKey place .allOf) := by
  unfold convertAllOf
  cases hcases : place.fragment.get? Combinator.allOf.keyword with
  | none =>
    refine Meets.pure ⟨key, h.labels.relabels _, .empty fun k => ?_⟩
    rintro ⟨schemas, i, hschemas, -⟩
    rw [hcases] at hschemas
    cases hschemas
  | some cases => exact convertCases_labels hrec hcases h hints

/-- What `oneOf` or `anyOf` contributes. -/
theorem convertChoice_labels (hrec : LabelsNodes c recur) (combinator : Combinator)
    (h : c.Scene place key s) (huntaken : Untaken key place.path (.choice combinator))
    (hints : Names) :
    Returns (convertChoice recur place combinator hints) s fun members s' =>
      ∃ key', s.Relabels c (Owns place.path (· = .choice combinator)) key key' s' ∧
        Collects key' members (Corpus.ChoiceKey place combinator) := by
  unfold convertChoice
  cases hcases : place.fragment.get? combinator.keyword with
  | none =>
    refine Meets.pure ⟨key, h.labels.relabels _, .empty fun k hk => ?_⟩
    obtain ⟨cases, hsome⟩ := Json.has_eq_true_iff.1 hk.1
    rw [hcases] at hsome
    cases hsome
  | some cases =>
    refine (h.labels.declare_returns h.bound huntaken (· = .choice combinator) rfl).seq
      fun union s₁ ⟨key₁, hs₁⟩ => ?_
    refine (convertCases_labels hrec hcases (h.advance hs₁.relabels) hints).seq
      fun members s₂ ⟨key₂, hs₂, hmembers⟩ => ?_
    refine (hs₁.fill hs₂.disowned (Corpus.located_iff.1 h.located) hmembers).seq
      fun _ s₃ ⟨hs₃, hunion⟩ => ?_
    have hhas := Json.has_eq_true_iff.2 ⟨cases, hcases⟩
    exact Meets.pure ⟨key₂, hs₃, .singleton hunion ⟨hhas, rfl⟩ fun other hother => hother.2⟩

/-! ## Arrays -/

/-- The node of an array type's items. -/
theorem convertItems_labels (hrec : LabelsNodes c recur) (harray : ("array", path) ∈ place.typePaths)
    (h : c.Scene place key s) (huntaken : Untaken key place.path (.positions path))
    (hints : Names) :
    Returns (convertItems recur ⟨place.document, place.fragment, path⟩ hints) s fun t s' =>
      ∃ key', s.Relabels c (Owns place.path (·.IsAt path)) key key' s' ∧
        ∃ k, c.ItemsKey place path k ∧ key' t = some k := by
  have hlocated := h.located.typePath harray
  have hone : ∀ {schema}, place.fragment.get? "items" = some schema → ∀ hints,
      Returns (recur ⟨place.document, schema, path.push (.key "items")⟩ hints) s fun t s' =>
        ∃ key', s.Relabels c (Owns place.path (·.IsAt path)) key key' s' ∧
          c.StandsFor key' (path.push (.key "items")) t := by
    intro schema hschema hints
    refine (hrec _ hints key s h.labels (Reference.isAddressable_push.2 rfl)
      (Or.inr (hlocated.push (e := .key "items") (Json.part?_of_get? hschema)))).imp ?_
    exact fun t s' ⟨key', hs', ht, _⟩ => ⟨key', hs'.disowned, ht⟩
  unfold convertItems Corpus.ItemsKey
  dsimp only
  cases hitems : place.fragment.get? "items" with
  | none =>
    refine (primitive_labels h.labels .any).imp ?_
    exact fun t s' ⟨key', hs', ht⟩ => ⟨key', hs'.disowned, _, rfl, ht⟩
  | some items =>
    cases items with
    | bool b => exact hone hitems hints.singular
    | obj members => exact hone hitems hints.singular
    | arr positions =>
      refine (h.labels.declare_returns h.bound huntaken (·.IsAt path) (Or.inr rfl)).seq
        fun union s₁ ⟨key₁, hs₁⟩ => ?_
      have hpositions : ∀ j schema, positions[j]? = some schema → c.Located ⟨place.document, schema,
          (path.push (.key "items")).push (.key (toString (0 + j)))⟩ := by
        intro j schema hschema
        rw [Nat.zero_add]
        exact hlocated.position hitems hschema
      refine (convertSiblings_labels hrec (fun _ => rfl) hpositions hs₁.relabels.labels _).seq
        fun members s₂ ⟨key₂, hs₂, hmembers⟩ => ?_
      have hcollects : Collects key₂ members (c.PositionKey place path) := by
        refine hmembers.congr fun k => ?_
        simp only [Corpus.PositionKey, hitems, Option.some.injEq, Json.arr.injEq, Nat.zero_add]
        exact ⟨fun ⟨_, j, heq, hj, hk⟩ => ⟨j, heq ▸ hj, hk⟩,
          fun ⟨j, hj, hk⟩ => ⟨_, j, rfl, hj, hk⟩⟩
      refine (orAny_labels hs₂.labels hcollects).seq fun members s₃ ⟨key₃, hs₃, hmembers⟩ => ?_
      refine (hs₁.fill (hs₂.trans hs₃).disowned (Corpus.located_iff.1 h.located) hmembers).seq
        fun _ s₄ ⟨hs₄, hunion⟩ => ?_
      exact Meets.pure ⟨key₃, hs₄, _, rfl, hunion⟩
    | null | num _ | str _ => exact Meets.throw trivial

/-- The node of an array type. -/
theorem convertArray_labels (hrec : LabelsNodes c recur) (harray : ("array", path) ∈ place.typePaths)
    (h : c.Scene place key s) (huntaken : Untaken key place.path (.positions path))
    (hints : Names) :
    Returns (convertArray recur ⟨place.document, place.fragment, path⟩ hints) s fun t s' =>
      ∃ key', s.Relabels c (Owns place.path (·.IsAt path)) key key' s' ∧
        ∃ k, (∃ items, c.ItemsKey place path items ∧ k = .array items) ∧ key' t = some k := by
  unfold convertArray
  refine (convertItems_labels hrec harray h huntaken hints).seq
    fun items s₁ ⟨key₁, hs₁, k, hitems, hk⟩ => ?_
  have hsuits : c.Suits key₁ (.array items) (.array k) := .array hk
  refine (hs₁.labels.intern_returns rfl hsuits).imp ?_
  exact fun t s' ⟨key', hs', ht⟩ => ⟨key', hs₁.trans hs'.disowned, _, ⟨k, hitems, rfl⟩, ht⟩

/-! ## Objects -/

/-- The properties of a class.  When a name occurs for the second time, its path is bound already. -/
theorem convertMembers_labels (hrec : LabelsNodes c recur)
    (hobject : ("object", path) ∈ place.typePaths) {members before rest : List (String × Json)}
    (hmembers : place.fragment.get? "properties" = some (.obj members))
    (hsplit : members = before ++ rest) (required : List String) (h : c.Scene place key s)
    (hbefore : ∀ member ∈ before, ∃ t,
      s.nodeOf? (path.pushKeys ["properties", member.1]) = some t) :
    Returns (convertMembers recur ⟨place.document, place.fragment, path⟩ required rest) s
      fun properties s' => ∃ key', s.Relabels c OwnsNothing key key' s' ∧ ∃ entries,
        List.Forall₂ (c.PropertyKey path required) rest entries ∧
          List.Forall₂ (Corpus.EntryOf key') properties entries := by
  induction rest generalizing before key s with
  | nil =>
    exact Meets.pure ⟨key, h.labels.relabels _, [], List.Forall₂.nil, List.Forall₂.nil⟩
  | cons member rest ih =>
    obtain ⟨name, schema⟩ := member
    have haddressable : (path.pushKeys ["properties", name]).IsAddressable := by
      rw [Reference.pushKeys_pair]
      exact Reference.isAddressable_push.2 rfl
    have hready : (∃ t, s.nodeOf? (path.pushKeys ["properties", name]) = some t) ∨
        c.Located ⟨place.document, schema, path.pushKeys ["properties", name]⟩ := by
      cases hlookup : before.lookup name with
      | some earlier =>
        obtain ⟨l, k, hl, -⟩ := List.lookup_eq_some_iff.1 hlookup
        exact Or.inl (hbefore (name, earlier) (by rw [hl]; simp))
      | none =>
        refine Or.inr ((h.located.typePath hobject).property hmembers ?_)
        rw [hsplit, List.lookup_append, hlookup]
        simp
    refine (hrec _ _ key s h.labels haddressable hready).seq
      fun t s₁ ⟨key₁, hs₁, ⟨k, hpath, hk⟩, hbound⟩ => ?_
    have hbefore₁ : ∀ member ∈ before ++ [(name, schema)], ∃ t,
        s₁.nodeOf? (path.pushKeys ["properties", member.1]) = some t := by
      intro member hmember
      rcases List.mem_append.1 hmember with hmember | hmember
      · exact (hbefore member hmember).imp fun n hn => hs₁.bound _ _ hn
      · rwa [List.mem_singleton.1 hmember]
    have hsplit₁ : members = (before ++ [(name, schema)]) ++ rest := by
      rw [hsplit, List.append_assoc]
      rfl
    refine (ih hsplit₁ (h.advance hs₁) hbefore₁).seq
      fun others s₂ ⟨key₂, hs₂, entries, hentries, hothers⟩ => ?_
    refine Meets.pure ⟨key₂, hs₁.trans hs₂, (name, k, !required.contains name) :: entries,
      List.Forall₂.cons ⟨rfl, hpath, rfl⟩ hentries, List.Forall₂.cons ⟨rfl, ?_, rfl⟩ hothers⟩
    exact hs₂.extends_key _ _ hk

/-- What `properties` contributes. -/
theorem convertProperties_labels (hrec : LabelsNodes c recur)
    (hobject : ("object", path) ∈ place.typePaths) (h : c.Scene place key s)
    (attributes : Attributes) :
    Returns (convertProperties recur ⟨place.document, place.fragment, path⟩ attributes) s
      fun members s' => ∃ key', s.Relabels c OwnsNothing key key' s' ∧
        Collects key' members (c.ClassKey place path) := by
  unfold convertProperties
  dsimp only
  cases hproperties : place.fragment.get? "properties" with
  | none =>
    refine Meets.pure ⟨key, h.labels.relabels _, .empty fun k => ?_⟩
    rintro ⟨members, required, entries, hmembers, -⟩
    rw [hproperties] at hmembers
    cases hmembers
  | some value =>
    cases value with
    | obj members =>
      refine Meets.andThen (Meets.ofResult (fun required hrequired => ?_) fun _ _ => trivial)
      refine (convertMembers_labels hrec hobject hproperties (List.nil_append members).symm required
        h fun _ hmem => absurd hmem List.not_mem_nil).seq
          fun properties s₁ ⟨key₁, hs₁, entries, hentries, hparts⟩ => ?_
      have hsuits : c.Suits key₁ (.record properties) (.record entries) := .record hparts
      refine (hs₁.labels.intern_returns rfl hsuits).seq fun record s₂ ⟨key₂, hs₂, hrecord⟩ => ?_
      refine ((hs₁.trans hs₂).addAttributes record attributes).seq fun _ s₃ hs₃ => ?_
      have hclass : c.ClassKey place path (.record entries) :=
        ⟨members, required, entries, hproperties, hrequired, hentries, rfl⟩
      exact Meets.pure ⟨key₂, hs₃, .singleton hrecord hclass fun _ hother => hclass.unique hother⟩
    | null | bool _ | num _ | str _ | arr _ => exact Meets.throw trivial

/-- What `additionalProperties` contributes. -/
theorem convertAdditional_labels (hrec : LabelsNodes c recur)
    (hobject : ("object", path) ∈ place.typePaths) (h : c.Scene place key s) (hints : Names) :
    Returns (convertAdditional recur ⟨place.document, place.fragment, path⟩ hints) s
      fun members s' => ∃ key', s.Relabels c OwnsNothing key key' s' ∧
        Collects key' members (c.MapKey place path) := by
  have hone : ∀ {key' : NodeId → Option Key} {t k}, key' t = some k → c.MapKey place path k →
      Collects key' (.singleton t) (c.MapKey place path) :=
    fun ht hmap => .singleton ht hmap fun _ hother => hmap.unique hother
  unfold convertAdditional
  dsimp only
  cases hadditional : place.fragment.get? "additionalProperties" with
  | none =>
    refine Meets.pure ⟨key, h.labels.relabels _, .empty fun k hk => ?_⟩
    rwa [Corpus.MapKey, hadditional] at hk
  | some value =>
    cases value with
    | bool b =>
      cases b with
      | false =>
        dsimp only
        split
        · next hhas =>
          refine Meets.pure ⟨key, h.labels.relabels _, .empty fun k hk => ?_⟩
          rw [Corpus.MapKey, hadditional] at hk
          rw [hhas] at hk
          cases hk.1
        · next hhas =>
          have hsuits : c.Suits key (.record []) (.record []) := .record List.Forall₂.nil
          refine (h.labels.intern_returns rfl hsuits).seq fun record s₁ ⟨key₁, hs₁, hrecord⟩ => ?_
          refine Meets.pure ⟨key₁, hs₁, hone hrecord ?_⟩
          rw [Corpus.MapKey, hadditional]
          exact ⟨Bool.eq_false_iff.2 hhas, rfl⟩
      | true =>
        refine (primitive_labels h.labels .any).seq fun any s₁ ⟨key₁, hs₁, hany⟩ => ?_
        refine (map_labels hs₁.labels hany).seq fun map s₂ ⟨key₂, hs₂, hmap⟩ => ?_
        refine Meets.pure ⟨key₂, hs₁.trans hs₂, hone hmap ?_⟩
        rw [Corpus.MapKey, hadditional]
    | obj members =>
      have hlocated := (h.located.typePath hobject).push (e := .key "additionalProperties")
        (Json.part?_of_get? hadditional)
      refine (hrec _ hints.singular key s h.labels (Reference.isAddressable_push.2 rfl)
        (Or.inr hlocated)).seq fun values s₁ ⟨key₁, hs₁, ⟨k, hpath, hk⟩, _⟩ => ?_
      refine (map_labels hs₁.labels hk).seq fun map s₂ ⟨key₂, hs₂, hmap⟩ => ?_
      refine Meets.pure ⟨key₂, hs₁.trans hs₂, hone hmap ?_⟩
      rw [Corpus.MapKey, hadditional]
      exact ⟨k, hpath, rfl⟩
    | null | num _ | str _ | arr _ => exact Meets.throw trivial

/-- The members of the node of an object type. -/
theorem objectMembers_labels (hrec : LabelsNodes c recur)
    (hobject : ("object", path) ∈ place.typePaths) (h : c.Scene place key s)
    (attributes : Attributes) :
    Returns (objectMembers recur ⟨place.document, place.fragment, path⟩ attributes) s
      fun members s' => ∃ key', s.Relabels c OwnsNothing key key' s' ∧
        Collects key' members (c.MemberKey place (.object path)) := by
  refine (convertProperties_labels hrec hobject h attributes).seq
    fun records s₁ ⟨key₁, hs₁, hrecords⟩ => ?_
  refine (convertAdditional_labels hrec hobject (h.advance hs₁) attributes.names).seq
    fun maps s₂ ⟨key₂, hs₂, hmaps⟩ => ?_
  have hunion := (hrecords.mono hs₂.extends_key).union hmaps
  refine (orAnyMap_labels hs₂.labels hunion).imp ?_
  exact fun members s' ⟨key', hs', hmembers⟩ => ⟨key', (hs₁.trans hs₂).trans hs', hmembers⟩

/-- The node of an object type. -/
theorem convertObject_labels (hrec : LabelsNodes c recur)
    (hobject : ("object", path) ∈ place.typePaths) (h : c.Scene place key s)
    (huntaken : Untaken key place.path (.object path)) (attributes : Attributes) :
    Returns (convertObject recur ⟨place.document, place.fragment, path⟩ attributes) s fun t s' =>
      ∃ key', s.Relabels c (Owns place.path (·.IsAt path)) key key' s' ∧
        key' t = some (.part place.path (.object path)) := by
  rw [convertObject_eq]
  refine (h.labels.declare_returns h.bound huntaken (·.IsAt path) (Or.inl rfl)).seq
    fun t s₁ ⟨key₁, hs₁⟩ => ?_
  refine ((hs₁.relabels.labels.relabels OwnsNothing).bind fun haddressable =>
    absurd haddressable (Place.not_isAddressable_of_object hobject)).seq fun _ s₂ ⟨hs₂, _⟩ => ?_
  have hscene := (h.advance hs₁.relabels).advance hs₂
  refine (objectMembers_labels hrec hobject hscene attributes).seq
    fun members s₃ ⟨key₃, hs₃, hmembers⟩ => ?_
  refine (hs₁.fill (hs₂.trans hs₃).disowned (Corpus.located_iff.1 h.located) hmembers).seq
    fun _ s₄ ⟨hs₄, ht⟩ => ?_
  exact (hs₄.addAttributes t attributes).seq fun _ s₅ hs₅ => Meets.pure ⟨key₃, hs₅, ht⟩

/-! ## Types -/

/-- The node of a type that a schema names. -/
theorem convertType_labels (hrec : LabelsNodes c recur) {name : String}
    (hpath : (name, path) ∈ place.typePaths) (h : c.Scene place key s)
    (huntaken : ∀ part : Part, part.IsAt path → Untaken key place.path part)
    (attributes : Attributes) :
    Returns (convertType recur ⟨place.document, place.fragment, path⟩ name attributes) s
      fun t s' => ∃ key', s.Relabels c (Owns place.path (·.IsAt path)) key key' s' ∧
        ∃ k, c.TypeKey place name path k ∧ key' t = some k := by
  unfold convertType Corpus.TypeKey
  cases htype : TypeName.ofText? name with
  | none => exact Meets.throw trivial
  | some type =>
    cases type with
    | object =>
      obtain rfl := TypeName.ofText?_eq_object htype
      refine (convertObject_labels hrec hpath h (huntaken _ (Or.inl rfl)) attributes).imp ?_
      exact fun t s' ⟨key', hs', ht⟩ => ⟨key', hs', _, rfl, ht⟩
    | array =>
      obtain rfl := TypeName.ofText?_eq_array htype
      exact convertArray_labels hrec hpath h (huntaken _ (Or.inr rfl)) attributes.names
    | boolean | null | integer | number | string =>
      refine (primitive_labels h.labels _).imp ?_
      exact fun t s' ⟨key', hs', ht⟩ => ⟨key', hs'.disowned, _, rfl, ht⟩

/-- The nodes of several types that a schema names, the first of them with index `i`. -/
theorem convertBranches_labels (hrec : LabelsNodes c recur) (attributes : Attributes) {i : Nat}
    {names : List String} (hpaths : ∀ e ∈ place.branchPaths i names, e ∈ place.typePaths)
    (h : c.Scene place key s)
    (huntaken : ∀ j, i ≤ j → ∀ part : Part, part.IsAt (place.path.push (.typeBranch j)) →
      Untaken key place.path part) :
    Returns (convertBranches recur place attributes i names) s fun members s' =>
      ∃ key', s.Relabels c (Owns place.path Part.IsTyped) key key' s' ∧
        Collects key' members fun k =>
          ∃ e ∈ place.branchPaths i names, c.TypeKey place e.1 e.2 k := by
  induction names generalizing i key s with
  | nil =>
    refine Meets.pure ⟨key, h.labels.relabels _, .empty fun k => ?_⟩
    rintro ⟨e, he, -⟩
    cases he
  | cons name rest ih =>
    have hpath := hpaths (name, place.path.push (.typeBranch i)) List.mem_cons_self
    refine (convertType_labels hrec hpath h (huntaken i (Nat.le_refl i)) attributes).seq
      fun t s₁ ⟨key₁, hs₁, k, htype, hk⟩ => ?_
    have huntaken₁ : ∀ j, i + 1 ≤ j → ∀ part : Part,
        part.IsAt (place.path.push (.typeBranch j)) → Untaken key₁ place.path part := by
      intro j hj part hpart
      obtain ⟨u, hu⟩ := h.bound
      refine hs₁.untaken hu ?_ (huntaken j (Nat.le_of_succ_le hj) part hpart)
      -- the paths of different types differ, so nothing has been made for those that follow
      rintro ⟨-, hfirst⟩
      have hindex := (Reference.push_injective (hpart.path_eq hfirst)).2
      cases hindex
      exact absurd hj (Nat.not_succ_le_self i)
    refine (ih (fun e he => hpaths e (List.mem_cons_of_mem _ he)) (h.advance hs₁) huntaken₁).seq
      fun others s₂ ⟨key₂, hs₂, hothers⟩ => ?_
    have hs₁' : s.Relabels c (Owns place.path Part.IsTyped) key key₁ s₁ :=
      hs₁.weaken fun _ _ hown => ⟨hown.1, Or.inr ⟨_, hown.2⟩⟩
    refine Meets.pure ⟨key₂, hs₁'.trans hs₂, (hothers.insert (hs₂.extends_key _ _ hk)).congr ?_⟩
    intro other
    constructor
    · rintro ⟨e, he, hother⟩
      rcases List.mem_cons.1 he with rfl | he
      · exact Or.inl (htype.unique hother)
      · exact Or.inr ⟨e, he, hother⟩
    · rintro (rfl | ⟨e, he, hother⟩)
      · exact ⟨_, List.mem_cons_self, htype⟩
      · exact ⟨e, List.mem_cons_of_mem _ he, hother⟩

/-- What the type of a schema contributes. -/
theorem convertTypes_labels (hrec : LabelsNodes c recur) (h : c.Scene place key s)
    (huntaken : ∀ part : Part, part.IsTyped → Untaken key place.path part)
    (attributes : Attributes) :
    Returns (convertTypes recur place attributes) s fun members s' =>
      ∃ key', s.Relabels c (Owns place.path Part.IsTyped) key key' s' ∧
        Collects key' members (c.TypesKey place) := by
  unfold convertTypes
  refine Meets.andThen (Meets.ofResult (fun names hnames => ?_) fun _ _ => trivial)
  have hdeclared := (namedTypes_eq_ok hnames).2
  match names with
  | [] =>
    refine Meets.pure ⟨key, h.labels.relabels _, .empty fun k hk => ?_⟩
    rw [Corpus.TypesKey, Place.typePaths_eq_of_not_singleton (by simp [← hdeclared]),
      ← hdeclared] at hk
    exact hk
  | [name] =>
    have htypePaths := Place.typePaths_eq_of_singleton hdeclared.symm
    have hpath : (name, place.onlyTypePath name) ∈ place.typePaths := by
      rw [htypePaths]
      exact List.mem_singleton.2 rfl
    refine (convertType_labels hrec hpath h (fun part hpart => huntaken part (Or.inr ⟨_, hpart⟩))
      attributes).seq fun t s₁ ⟨key₁, hs₁, k, htype, hk⟩ => ?_
    have htypes : ∀ other, c.TypesKey place other ↔
        c.TypeKey place name (place.onlyTypePath name) other := by
      intro other
      rw [Corpus.TypesKey, htypePaths]
    refine Meets.pure ⟨key₁, hs₁.weaken fun _ _ hown => ⟨hown.1, Or.inr ⟨_, hown.2⟩⟩,
      .singleton hk ((htypes k).2 htype) fun other hother => ?_⟩
    exact htype.unique ((htypes other).1 hother)
  | first :: second :: rest =>
    have htypePaths : place.typePaths = place.branchPaths 0 (first :: second :: rest) := by
      rw [Place.typePaths_eq_of_not_singleton (by simp [← hdeclared]), ← hdeclared]
    refine (h.labels.declare_returns h.bound (huntaken _ (Or.inl rfl)) Part.IsTyped
      (Or.inl rfl)).seq fun union s₁ ⟨key₁, hs₁⟩ => ?_
    have huntaken₁ : ∀ j, 0 ≤ j → ∀ part : Part,
        part.IsAt (place.path.push (.typeBranch j)) → Untaken key₁ place.path part := by
      intro j _ part hpart
      refine hs₁.others part ?_ (huntaken part (Or.inr ⟨_, hpart⟩))
      rintro rfl
      rcases hpart with hpart | hpart <;> cases hpart
    refine (convertBranches_labels hrec attributes (by rw [htypePaths]; exact fun _ he => he)
      (h.advance hs₁.relabels) huntaken₁).seq fun members s₂ ⟨key₂, hs₂, hmembers⟩ => ?_
    have hcollects : Collects key₂ members (c.MemberKey place .types) := by
      refine hmembers.congr fun k => ?_
      rw [Corpus.MemberKey, htypePaths]
    refine (hs₁.fill hs₂ (Corpus.located_iff.1 h.located) hcollects).seq
      fun _ s₃ ⟨hs₃, hunion⟩ => ?_
    have htypes : ∀ other, c.TypesKey place other ↔ other = .part place.path .types := by
      intro other
      rw [Corpus.TypesKey, htypePaths]
      rfl
    exact Meets.pure ⟨key₂, hs₃, .singleton hunion ((htypes _).2 rfl) fun other hother =>
      (htypes other).1 hother⟩

end Conversion

end ShapeGraph
