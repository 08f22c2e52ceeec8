import ShapeGraph.Proofs.Frames
import ShapeGraph.Proofs.Runs
import ShapeGraph.Proofs.Yields

/-!
# What a successful run leaves behind

A run that succeeds leaves no union or intersection without members, no intersection with an empty set
of them, no reference to a node that does not exist, and no node that cannot be reached from a name,
apart from the primitive type `null`.  This does not depend on the documents: they need not even agree
with one another.

## Main definitions

* `Conversion.YieldsNodes` — the conversion of inner schemas hands over all that it has made.
* `TypeGraph.Complete` — nothing is half-built and nothing is stray.

## Main results

* `Conversion.schemaMembers_yields`, `Conversion.convertObject_yields`, … — the parts of a schema.
* `Conversion.toType_yields` — the conversion of a place.
* `Conversion.convertAll_complete` — the graph that a run leaves behind.
-/

set_option autoImplicit false

namespace ShapeGraph

namespace Conversion

open Progress

variable {σ α : Type} {s s' : Progress σ} {recur : Converter σ}

/-- If the conversion of a schema gives a node, all that it has made is finished and hangs on it. -/
def YieldsNodes (recur : Converter σ) : Prop :=
  ∀ (place : Place) (hints : Names) (s : Progress σ), s.Valid →
    Returns (recur place hints) s fun t s' => s.Yields (· = t) s'

/-! ## Nodes -/

theorem primitive_yields (h : s.Valid) (kind : Primitive) :
    Returns (primitive kind) s fun t s' =>
      s.Yields (· = t) s' ∧ s'.graph.shape? t = some (.primitive kind) :=
  (h.yields_nothing fun _ hr => hr : s.Yields (fun _ => False) s).intern rfl fun r => by
    simp [Shape.parts]

theorem enum_yields (h : s.Valid) (texts : List String) :
    Returns (onGraph (·.enum texts)) s fun t s' => s.Yields (· = t) s' := by
  have hnothing : s.Yields (fun _ => False) s := h.yields_nothing fun _ hr => hr
  have hnone : ∀ r, False ↔ r ∈ (Shape.enum texts).parts.map Prod.snd := by simp [Shape.parts]
  exact (hnothing.intern rfl hnone).imp fun t s' ht => ht.1

/-- Some members, or the node of any type if there are none: in any case there is one. -/
theorem orAny_yields {members : SortedSet NodeId} (h : s.Yields (· ∈ members) s') :
    Returns (orAny members) s' fun members s'' =>
      s.Yields (· ∈ members) s'' ∧ ∃ m, m ∈ members := by
  unfold orAny
  split
  · next hempty =>
    have hnone : ∀ r, r ∈ members ↔ r ∈ (Shape.primitive .any).parts.map Prod.snd := fun r => by
      simp [Shape.parts, SortedSet.isEmpty_iff.1 hempty r]
    refine (h.intern rfl hnone).seq fun any s₁ ⟨hs₁, _⟩ => ?_
    exact Meets.pure ⟨hs₁.congr fun r => SortedSet.mem_singleton, any, SortedSet.mem_singleton.2 rfl⟩
  · next hempty =>
    refine Meets.pure ⟨h, ?_⟩
    simpa [SortedSet.isEmpty_iff] using hempty

/-- A map of what there is so far. -/
theorem map_yields {values : NodeId} (h : s.Yields (· = values) s') :
    Returns (onGraph (·.map values)) s' fun t s'' => s.Yields (· = t) s'' := by
  have hvalues : ∀ r, r = values ↔ r ∈ (Shape.map values).parts.map Prod.snd := by
    simp [Shape.parts]
  exact (h.intern rfl hvalues).imp fun t s'' ht => ht.1

/-- Some members, or a map of anything if there are none. -/
theorem orAnyMap_yields {members : SortedSet NodeId} (h : s.Yields (· ∈ members) s') :
    Returns (orAnyMap members) s' fun members s'' => s.Yields (· ∈ members) s'' := by
  unfold orAnyMap
  split
  · next hempty =>
    have hnone : ∀ r, r ∈ members ↔ r ∈ (Shape.primitive .any).parts.map Prod.snd := fun r => by
      simp [Shape.parts, SortedSet.isEmpty_iff.1 hempty r]
    refine (h.intern rfl hnone).seq fun any s₁ ⟨hs₁, _⟩ => ?_
    refine (map_yields hs₁).seq fun map s₂ hs₂ => ?_
    exact Meets.pure (hs₂.congr fun r => SortedSet.mem_singleton)
  · exact Meets.pure h

/-! ## Enums -/

/-- The node of an `enum`.  If `null` is none of the cases, its node may be left over. -/
theorem convertEnum_yields (h : s.Valid) (cases : Json) (path : Reference) (attributes : Attributes) :
    Returns (convertEnum cases path attributes) s fun t s' => s.Yields (· = t) s' := by
  unfold convertEnum
  cases cases with
  | arr items =>
    dsimp only
    cases enumCases items with
    | error case => exact Meets.throw trivial
    | ok result =>
      obtain ⟨texts, nullable⟩ := result
      refine (primitive_yields h .null).seq fun null s₁ ⟨hs₁, hnull⟩ => ?_
      split
      · exact Meets.pure hs₁
      · refine (enum_yields hs₁.valid texts).seq fun enum s₂ hs₂ => ?_
        refine (hs₂.addAttributes enum attributes).seq fun _ s₃ hs₃ => ?_
        split
        · refine (hs₃.valid.declare .union).seq fun union s₄ hs₄ => ?_
          have hboth := hs₁.and hs₃
          have hroots : ∀ r, r ∈ (SortedSet.singleton enum).insert null ↔ r = null ∨ r = enum := by
            simp
          have hmembers := hs₄.valid.yields fun r hr =>
            Nat.lt_of_lt_of_le (hboth.roots_lt r ((hroots r).1 hr)) hs₄.keeps.length_le
          refine (hs₄.fill hmembers nofun).seq fun _ s₅ ⟨hs₅, hunion⟩ => ?_
          have hyields := hboth.trans hs₅ fun r hr => ⟨union, rfl, Relation.ReflTransGen.single
            ⟨_, .member, hunion, List.mem_map.2 ⟨r, (hroots r).2 hr, rfl⟩⟩⟩
          exact (hyields.addAttributes union attributes).seq fun _ s₆ hs₆ => Meets.pure hs₆
        · exact Meets.pure (((hs₁.drop_null hnull).and hs₃).congr fun r => by simp)
  | null | bool _ | num _ | str _ | obj _ => exact Meets.throw trivial

/-! ## Lists of schemas -/

/-- The nodes of some schemas that stand side by side. -/
theorem convertSiblings_yields (hrec : YieldsNodes recur) (place : Place) (step : Nat → PathElement)
    (hints : Names) (i : Nat) (schemas : List Json) (h : s.Valid) :
    Returns (convertSiblings recur place step hints i schemas) s fun members s' =>
      s.Yields (· ∈ members) s' := by
  induction schemas generalizing i s with
  | nil => exact Meets.pure (h.yields_nothing fun r => SortedSet.not_mem_empty r)
  | cons schema rest ih =>
    refine (hrec _ hints s h).seq fun t s₁ hs₁ => ?_
    refine (ih (i + 1) hs₁.valid).seq fun others s₂ hs₂ => ?_
    exact Meets.pure ((hs₁.and hs₂).congr fun r => SortedSet.mem_insert)

theorem convertCases_yields (hrec : YieldsNodes recur) (place : Place) (combinator : Combinator)
    (cases : Json) (hints : Names) (h : s.Valid) :
    Returns (convertCases recur place combinator cases hints) s fun members s' =>
      s.Yields (· ∈ members) s' := by
  unfold convertCases
  cases cases with
  | arr schemas => exact convertSiblings_yields hrec place _ hints 0 schemas h
  | null | bool _ | num _ | str _ | obj _ => exact Meets.throw trivial

theorem convertAllOf_yields (hrec : YieldsNodes recur) (place : Place) (hints : Names)
    (h : s.Valid) :
    Returns (convertAllOf recur place hints) s fun members s' => s.Yields (· ∈ members) s' := by
  unfold convertAllOf
  split
  · exact Meets.pure (h.yields_nothing fun r => SortedSet.not_mem_empty r)
  · exact convertCases_yields hrec place .allOf _ hints h

theorem convertChoice_yields (hrec : YieldsNodes recur) (place : Place) (combinator : Combinator)
    (hints : Names) (h : s.Valid) :
    Returns (convertChoice recur place combinator hints) s fun members s' =>
      s.Yields (· ∈ members) s' := by
  unfold convertChoice
  split
  · exact Meets.pure (h.yields_nothing fun r => SortedSet.not_mem_empty r)
  · refine (h.declare .union).seq fun union s₁ hs₁ => ?_
    refine (convertCases_yields hrec place combinator _ hints hs₁.valid).seq fun members s₂ hs₂ => ?_
    refine (hs₁.fill hs₂ nofun).seq fun _ s₃ ⟨hs₃, _⟩ => ?_
    exact Meets.pure (hs₃.congr fun r => SortedSet.mem_singleton)

/-! ## Arrays -/

/-- The node of an array's items. -/
theorem convertItems_yields (hrec : YieldsNodes recur) (place : Place) (hints : Names)
    (h : s.Valid) :
    Returns (convertItems recur place hints) s fun t s' => s.Yields (· = t) s' := by
  unfold convertItems
  dsimp only
  split
  · exact (primitive_yields h .any).imp fun t s' ht => ht.1
  · refine (h.declare .union).seq fun union s₁ hs₁ => ?_
    refine (convertSiblings_yields hrec _ _ _ 0 _ hs₁.valid).seq fun positions s₂ hs₂ => ?_
    refine (orAny_yields hs₂).seq fun members s₃ ⟨hs₃, _⟩ => ?_
    exact (hs₁.fill hs₃ nofun).seq fun _ s₄ ⟨hs₄, _⟩ => Meets.pure hs₄
  · exact hrec _ _ s h
  · exact hrec _ _ s h
  · exact Meets.throw trivial

theorem convertArray_yields (hrec : YieldsNodes recur) (place : Place) (hints : Names)
    (h : s.Valid) :
    Returns (convertArray recur place hints) s fun t s' => s.Yields (· = t) s' := by
  refine (convertItems_yields hrec place hints h).seq fun items s₁ hs₁ => ?_
  have hitems : ∀ r, r = items ↔ r ∈ (Shape.array items).parts.map Prod.snd := by
    simp [Shape.parts]
  exact (hs₁.intern rfl hitems).imp fun t s' ht => ht.1

/-! ## Objects -/

/-- The properties of a class: what has been made hangs on their types. -/
theorem convertMembers_yields (hrec : YieldsNodes recur) (place : Place) (required : List String)
    (members : List (String × Json)) (h : s.Valid) :
    Returns (convertMembers recur place required members) s fun properties s' =>
      s.Yields (· ∈ properties.map Property.target) s' := by
  induction members generalizing s with
  | nil => exact Meets.pure (h.yields_nothing fun r => List.not_mem_nil)
  | cons member rest ih =>
    refine (hrec _ _ s h).seq fun t s₁ hs₁ => ?_
    refine (ih hs₁.valid).seq fun others s₂ hs₂ => ?_
    exact Meets.pure ((hs₁.and hs₂).congr fun r => List.mem_cons)

theorem convertProperties_yields (hrec : YieldsNodes recur) (place : Place) (attributes : Attributes)
    (h : s.Valid) :
    Returns (convertProperties recur place attributes) s fun members s' =>
      s.Yields (· ∈ members) s' := by
  unfold convertProperties
  split
  · exact Meets.pure (h.yields_nothing fun r => SortedSet.not_mem_empty r)
  · refine Meets.andThen (Meets.ofResult (fun required _ => ?_) fun _ _ => trivial)
    refine (convertMembers_yields hrec place required _ h).seq fun properties s₁ hs₁ => ?_
    have htargets : ∀ r, r ∈ properties.map Property.target ↔
        r ∈ (Shape.record properties).parts.map Prod.snd := by simp [Shape.parts]
    refine (hs₁.intern rfl htargets).seq fun record s₂ ⟨hs₂, _⟩ => ?_
    refine (hs₂.addAttributes record attributes).seq fun _ s₃ hs₃ => ?_
    exact Meets.pure (hs₃.congr fun r => SortedSet.mem_singleton)
  · exact Meets.throw trivial

theorem convertAdditional_yields (hrec : YieldsNodes recur) (place : Place) (hints : Names)
    (h : s.Valid) :
    Returns (convertAdditional recur place hints) s fun members s' => s.Yields (· ∈ members) s' := by
  unfold convertAdditional
  dsimp only
  split
  · exact Meets.pure (h.yields_nothing fun r => SortedSet.not_mem_empty r)
  · split
    · exact Meets.pure (h.yields_nothing fun r => SortedSet.not_mem_empty r)
    · have hnothing : s.Yields (fun _ => False) s := h.yields_nothing fun _ hr => hr
      have hnone : ∀ r, False ↔ r ∈ (Shape.record []).parts.map Prod.snd := by simp [Shape.parts]
      refine (hnothing.intern rfl hnone).seq fun record s₁ ⟨hs₁, _⟩ => ?_
      exact Meets.pure (hs₁.congr fun r => SortedSet.mem_singleton)
  · refine (primitive_yields h .any).seq fun any s₁ ⟨hs₁, _⟩ => ?_
    refine (map_yields hs₁).seq fun map s₂ hs₂ => ?_
    exact Meets.pure (hs₂.congr fun r => SortedSet.mem_singleton)
  · refine (hrec _ _ s h).seq fun values s₁ hs₁ => ?_
    refine (map_yields hs₁).seq fun map s₂ hs₂ => ?_
    exact Meets.pure (hs₂.congr fun r => SortedSet.mem_singleton)
  · exact Meets.throw trivial

theorem objectMembers_yields (hrec : YieldsNodes recur) (place : Place) (attributes : Attributes)
    (h : s.Valid) :
    Returns (objectMembers recur place attributes) s fun members s' =>
      s.Yields (· ∈ members) s' := by
  refine (convertProperties_yields hrec place attributes h).seq fun records s₁ hs₁ => ?_
  refine (convertAdditional_yields hrec place _ hs₁.valid).seq fun maps s₂ hs₂ => ?_
  exact orAnyMap_yields ((hs₁.and hs₂).congr fun r => SortedSet.mem_union)

theorem convertObject_yields (hrec : YieldsNodes recur) (place : Place) (attributes : Attributes)
    (h : s.Valid) :
    Returns (convertObject recur place attributes) s fun t s' => s.Yields (· = t) s' := by
  rw [convertObject_eq]
  refine (h.declare .union).seq fun union s₁ hs₁ => (hs₁.bind place.path).seq fun _ s₂ hs₂ => ?_
  refine (objectMembers_yields hrec place attributes hs₂.valid).seq fun members s₃ hs₃ => ?_
  refine (hs₂.fill hs₃ nofun).seq fun _ s₄ ⟨hs₄, _⟩ => ?_
  exact (hs₄.addAttributes union attributes).seq fun _ s₅ hs₅ => Meets.pure hs₅

/-! ## Types -/

theorem convertType_yields (hrec : YieldsNodes recur) (place : Place) (name : String)
    (attributes : Attributes) (h : s.Valid) :
    Returns (convertType recur place name attributes) s fun t s' => s.Yields (· = t) s' := by
  unfold convertType
  split
  · exact Meets.throw trivial
  · exact convertObject_yields hrec place attributes h
  · exact convertArray_yields hrec place attributes.names h
  all_goals exact (primitive_yields h _).imp fun t s' ht => ht.1

theorem convertBranches_yields (hrec : YieldsNodes recur) (place : Place) (attributes : Attributes)
    (i : Nat) (names : List String) (h : s.Valid) :
    Returns (convertBranches recur place attributes i names) s fun members s' =>
      s.Yields (· ∈ members) s' := by
  induction names generalizing i s with
  | nil => exact Meets.pure (h.yields_nothing fun r => SortedSet.not_mem_empty r)
  | cons name rest ih =>
    refine (convertType_yields hrec _ name attributes h).seq fun t s₁ hs₁ => ?_
    refine (ih (i + 1) hs₁.valid).seq fun others s₂ hs₂ => ?_
    exact Meets.pure ((hs₁.and hs₂).congr fun r => SortedSet.mem_insert)

theorem convertTypes_yields (hrec : YieldsNodes recur) (place : Place) (attributes : Attributes)
    (h : s.Valid) :
    Returns (convertTypes recur place attributes) s fun members s' => s.Yields (· ∈ members) s' := by
  unfold convertTypes
  refine Meets.andThen (Meets.ofResult (fun names _ => ?_) fun _ _ => trivial)
  split
  · exact Meets.pure (h.yields_nothing fun r => SortedSet.not_mem_empty r)
  · refine (convertType_yields hrec _ _ attributes h).seq fun t s₁ hs₁ => ?_
    exact Meets.pure (hs₁.congr fun r => SortedSet.mem_singleton)
  · refine (h.declare .union).seq fun union s₁ hs₁ => ?_
    refine (convertBranches_yields hrec place attributes 0 _ hs₁.valid).seq fun members s₂ hs₂ => ?_
    refine (hs₁.fill hs₂ nofun).seq fun _ s₃ ⟨hs₃, _⟩ => ?_
    exact Meets.pure (hs₃.congr fun r => SortedSet.mem_singleton)

/-! ## Schemas -/

/-- The members of the node of a schema.  There is at least one. -/
theorem schemaMembers_yields (hrec : YieldsNodes recur) (place : Place) (attributes : Attributes)
    (h : s.Valid) :
    Returns (schemaMembers recur place attributes) s fun members s' =>
      s.Yields (· ∈ members) s' ∧ ∃ m, m ∈ members := by
  unfold schemaMembers
  refine (convertAllOf_yields hrec place _ h).seq fun all s₁ hs₁ => ?_
  refine (convertChoice_yields hrec place .oneOf _ hs₁.valid).seq fun one s₂ hs₂ => ?_
  refine (convertChoice_yields hrec place .anyOf _ hs₂.valid).seq fun any s₃ hs₃ => ?_
  refine (convertTypes_yields hrec place attributes hs₃.valid).seq fun types s₄ hs₄ => ?_
  refine orAny_yields ((((hs₁.and hs₂).and hs₃).and hs₄).congr fun r => ?_)
  rw [SortedSet.mem_union, SortedSet.mem_union, SortedSet.mem_union]

theorem convertSchema_yields (hrec : YieldsNodes recur) (place : Place) (attributes : Attributes)
    (h : s.Valid) :
    Returns (convertSchema recur place attributes) s fun t s' => s.Yields (· = t) s' := by
  rw [convertSchema_eq]
  refine (h.declare .intersection).seq fun t s₁ hs₁ => (hs₁.bind place.path).seq fun _ s₂ hs₂ => ?_
  refine (schemaMembers_yields hrec place attributes hs₂.valid).seq fun members s₃ ⟨hs₃, hsome⟩ => ?_
  refine (hs₂.fill hs₃ fun _ => hsome).seq fun _ s₄ ⟨hs₄, _⟩ => ?_
  exact (hs₄.addAttributes t attributes).seq fun _ s₅ hs₅ => Meets.pure hs₅

/-! ## References -/

/-- Other references being followed make no difference to the graph. -/
theorem yields_onChain {roots : NodeId → Prop} {chain chain' : List Reference}
    (h : Yields { s with chain := chain } roots s') :
    s.Yields roots { s' with chain := chain' } :=
  ⟨⟨h.valid.graph, h.valid.bound_lt⟩, h.keeps, h.topLevels_eq, h.roots_lt, h.finished, h.reached⟩

theorem onChain_yields {enter : List Reference → List Reference}
    {leave : List Reference → List Reference → List Reference} {x : Conversion σ NodeId}
    (h : s.Valid) (hx : ∀ s : Progress σ, s.Valid → Returns x s fun t s' => s.Yields (· = t) s') :
    Returns (onChain enter leave x) s fun t s' => s.Yields (· = t) s' := by
  have hchained : Valid { s with chain := enter s.chain } := ⟨h.graph, h.bound_lt⟩
  exact Meets.onChain ((hx _ hchained).mono (fun _ _ ht => yields_onChain ht) fun _ _ he => he)

variable [DocumentSource σ]

/-- Documents make no difference to the graph. -/
theorem fetch_yields (address : String) (h : s.Valid) :
    Returns (fetch address) s fun _ s' => s.Yields (fun _ => False) s' := by
  have hnothing : s.Yields (fun _ => False) s := h.yields_nothing fun _ hr => hr
  have hfetched : s.Yields (fun _ => False)
      { s with documents := (DocumentSource.fetch s.documents address).2 } :=
    ⟨⟨h.graph, h.bound_lt⟩, hnothing.keeps, rfl, fun _ hr => hr.elim, hnothing.finished,
      hnothing.reached⟩
  exact Meets.andThen (Meets.get (Meets.ofResult (fun _ _ => hfetched) fun _ _ => trivial))

theorem locate_yields (place : Place) (target : Reference) (h : s.Valid) :
    Returns (locate place target) s fun _ s' => s.Yields (fun _ => False) s' := by
  unfold locate
  split
  · exact Meets.ofResult (fun _ _ => h.yields_nothing fun _ hr => hr) fun _ _ => trivial
  · refine (fetch_yields target.address h).seq fun document s₁ hs₁ => ?_
    exact Meets.ofResult (fun _ _ => hs₁) fun _ _ => trivial

theorem follow_yields (hrec : YieldsNodes recur) (place : Place) (value : Json) (hints : Names)
    (h : s.Valid) :
    Returns (follow recur place value hints) s fun t s' => s.Yields (· = t) s' := by
  unfold follow followTo
  refine Meets.andThen (Meets.ofResult (fun target _ => ?_) fun _ _ => trivial)
  refine Meets.andThen (Meets.ofResult (fun names _ => ?_) fun _ _ => trivial)
  refine (locate_yields place target h).seq fun found s₁ hs₁ => Meets.andThen (Meets.get ?_)
  dsimp only
  split
  · exact Meets.throw trivial
  · refine (onChain_yields hs₁.valid (hrec found names)).imp fun t s₂ hs₂ => ?_
    exact (hs₁.and hs₂).congr fun r => by simp

/-! ## Places -/

theorem convertFragment_yields (hrec : YieldsNodes recur) (place : Place) (hints : Names)
    (h : s.Valid) :
    Returns (convertFragment recur place hints) s fun t s' => s.Yields (· = t) s' := by
  rcases place.view with ⟨b, hb⟩ | ⟨value, hvalue⟩ | ⟨cases, href, hcases⟩ | hschema | ⟨hbool, hobj⟩
  · rw [convertFragment_of_bool recur hints hb]
    exact (primitive_yields h .any).imp fun t s' ht => ht.1
  · rw [convertFragment_of_reference recur hints hvalue]
    exact follow_yields hrec place value hints h
  · rw [convertFragment_of_enum recur hints href hcases]
    exact convertEnum_yields h cases place.path _
  · rw [convertFragment_of_isSchema recur hints hschema]
    exact convertSchema_yields hrec place _ h
  · rw [convertFragment_of_none recur hints hbool hobj]
    exact Meets.throw trivial

theorem convertPlace_yields (hrec : YieldsNodes recur) (place : Place) (hints : Names)
    (h : s.Valid) :
    Returns (convertPlace recur place hints) s fun t s' => s.Yields (· = t) s' := by
  have hfragment : Returns (if place.fragment.has "$ref" then convertFragment recur place hints
      else withChain [] (convertFragment recur place hints)) s fun t s' => s.Yields (· = t) s' := by
    split
    · exact convertFragment_yields hrec place hints h
    · exact onChain_yields h fun s hs => convertFragment_yields hrec place hints hs
  rw [convertPlace_eq]
  refine hfragment.seq fun t s₁ hs₁ => ?_
  exact (hs₁.bind (hs₁.roots_lt t rfl) place.path).seq fun _ s₂ hs₂ => Meets.pure hs₂

/-! ## Recursion -/

/-- If the conversion of a place gives a node, all that it has made is finished and hangs on it: by
induction on the budget.  A path that stands for a node already makes nothing. -/
theorem toType_yields (limit budget : Nat) : YieldsNodes (σ := σ) (toType limit budget) := by
  have hbound : ∀ {s : Progress σ} {path : Reference} {t : NodeId}, s.Valid →
      s.nodeOf? path = some t → s.Yields (· = t) s := by
    intro s path t hs ht
    refine hs.yields fun r hr => ?_
    rw [hr]
    exact hs.bound_lt path t ht
  induction budget with
  | zero =>
    intro place hints s hs
    exact Meets.boundOr (fun _ => hbound hs) fun _ => Meets.throw trivial
  | succ budget ih =>
    intro place hints s hs
    exact Meets.boundOr (fun _ => hbound hs) fun _ => convertPlace_yields ih place hints hs

end Conversion

/-! ## Runs -/

/-- Nothing is half-built and nothing is stray. -/
structure TypeGraph.Complete (g : TypeGraph) : Prop where
  /-- Unions and intersections have members. -/
  populated : ∀ t operation members, g.shape? t = some (.combination operation members) →
    ∃ nodes, members = some nodes
  /-- An intersection has at least one member. -/
  inhabited : ∀ t members, g.shape? t = some (.combination .intersection (some members)) →
    ∃ m, m ∈ members
  /-- The parts of a node are nodes. -/
  parts_lt : ∀ t shape, g.shape? t = some shape → ∀ part ∈ shape.parts, part.2 < g.nodes.length
  /-- The links from a node are those to its parts. -/
  links_perm : ∀ t shape, g.shape? t = some shape →
    ((g.linksFrom t).map fun l => (l.role, l.target)).Perm shape.parts
  /-- Names are those of nodes. -/
  topLevels_lt : ∀ name t, g.topLevels.find? name = some t → t < g.nodes.length
  /-- There is at most one node of the primitive type `null`. -/
  null_unique : ∀ t u, g.shape? t = some (.primitive .null) → g.shape? u = some (.primitive .null) →
    t = u
  /-- All other nodes can be reached from one that has a name. -/
  reachable : ∀ t, t < g.nodes.length → g.shape? t = some (.primitive .null) ∨
    ∃ name root, g.topLevels.find? name = some root ∧ Relation.ReflTransGen g.Linked root t

/-- Everything that there is so far is finished and hangs on a name. -/
structure Progress.Whole {σ : Type} (s : Progress σ) : Prop where
  valid : s.Valid
  finished : ∀ t shape, s.graph.shape? t = some shape → shape.isFinished = true
  topLevels_lt : ∀ name t, s.graph.topLevels.find? name = some t → t < s.graph.nodes.length
  reached : ∀ t, t < s.graph.nodes.length → s.graph.shape? t = some (.primitive .null) ∨
    ∃ name root, s.graph.topLevels.find? name = some root ∧ s.graph.Reaches root t

namespace Progress.Whole

variable {σ : Type} {s : Progress σ}

theorem start (documents : σ) : (Progress.start documents).Whole where
  valid := .start documents
  finished := by simp [Progress.start, TypeGraph.empty, TypeGraph.shape?]
  topLevels_lt name t ht := by cases ht
  reached := by simp [Progress.start, TypeGraph.empty]

/-- What a conversion has made hangs on a new name for its result. -/
theorem addTopLevel {s' : Progress σ} (h : s.Whole) {t : NodeId}
    (hs' : s.Yields (· = t) s') {name : String} (hfresh : s.graph.topLevels.find? name = none) :
    Whole { s' with graph := s'.graph.addTopLevel name t } := by
  have hfind : ∀ other, (s'.graph.addTopLevel name t).topLevels.find? other =
      if other = name then some t else s.graph.topLevels.find? other := by
    intro other
    rw [← hs'.topLevels_eq]
    exact s'.graph.find?_addTopLevel name other t
  have hold : ∀ {other root}, s.graph.topLevels.find? other = some root →
      (s'.graph.addTopLevel name t).topLevels.find? other = some root := by
    intro other root hroot
    rw [hfind, if_neg, hroot]
    rintro rfl
    rw [hfresh] at hroot
    cases hroot
  refine ⟨⟨hs'.valid.graph.addTopLevel name t, hs'.valid.bound_lt⟩, ?_, ?_, ?_⟩
  · intro u shape hu
    rcases Nat.lt_or_ge u s.graph.nodes.length with hlt | hnew
    · obtain ⟨same, hsame⟩ := TypeGraph.exists_shape? hlt
      obtain rfl : same = shape := Option.some.inj ((hs'.keeps u same hsame).symm.trans hu)
      exact h.finished u same hsame
    · exact hs'.finished u shape hnew hu
  · intro other root hroot
    rw [hfind] at hroot
    split at hroot
    · cases hroot
      exact hs'.roots_lt t rfl
    · exact Nat.lt_of_lt_of_le (h.topLevels_lt other root hroot) hs'.keeps.length_le
  · intro u hu
    rcases Nat.lt_or_ge u s.graph.nodes.length with hlt | hnew
    · rcases h.reached u hlt with hnull | ⟨other, root, hroot, hreaches⟩
      · exact Or.inl (hs'.keeps u _ hnull)
      · exact Or.inr ⟨other, root, hold hroot, hreaches.mono hs'.keeps.retains⟩
    · rcases hs'.reached u hnew hu with hnull | ⟨r, rfl, hreaches⟩
      · exact Or.inl hnull
      · exact Or.inr ⟨name, r, (hfind name).trans (if_pos rfl), hreaches⟩

theorem complete (h : s.Whole) : s.graph.Complete where
  populated t operation members ht := by
    cases members with
    | some nodes => exact ⟨nodes, rfl⟩
    | none => cases h.finished t _ ht
  inhabited t members ht := by
    have hfinished := h.finished t _ ht
    have hnonempty : ¬ members.isEmpty = true := by simpa [Shape.isFinished] using hfinished
    simpa [SortedSet.isEmpty_iff] using hnonempty
  parts_lt := h.valid.graph.closed
  links_perm := h.valid.graph.mirrored.parts_perm
  topLevels_lt := h.topLevels_lt
  null_unique _ _ := h.valid.graph.consed.unique rfl
  reachable t ht := by
    refine (h.reached t ht).imp_right ?_
    rintro ⟨name, root, hname, hreaches⟩
    refine ⟨name, root, hname, ?_⟩
    rwa [show s.graph.Linked = s.graph.HasPart from
      funext₂ fun u v => propext h.valid.graph.mirrored.linked_iff]

end Progress.Whole

namespace Conversion

open Progress

variable {σ : Type} [DocumentSource σ] {s : Progress σ}

/-- The target of a named reference is converted, and its node gets the name. -/
theorem convertTopLevel_whole (h : s.Whole) (limit : Option Nat) (extent : Extent) (root : Json)
    (rootAddress : String) {name : String} (reference : Reference)
    (hfresh : s.graph.topLevels.find? name = none) :
    Returns (convertTopLevel limit extent root rootAddress name reference) s fun _ s' =>
      s'.Whole ∧ ∀ other, other ≠ name →
        s'.graph.topLevels.find? other = s.graph.topLevels.find? other := by
  have hplace : Returns (topLevelPlace root rootAddress reference) s
      fun _ s' => s.Yields (fun _ => False) s' := by
    unfold topLevelPlace
    split
    · refine Meets.andThen (Meets.pure (Meets.ofResult (fun _ _ => ?_) fun _ _ => trivial))
      exact h.valid.yields_nothing fun _ hr => hr
    · refine (fetch_yields reference.address h.valid).seq fun document s₁ hs₁ => ?_
      exact Meets.ofResult (fun _ _ => hs₁) fun _ _ => trivial
  refine hplace.seq fun place s₁ hs₁ => ?_
  refine (toType_yields _ _ place _ s₁ hs₁.valid).seq fun t s₂ hs₂ => Meets.onGraph ?_
  have hyields : s.Yields (· = t) s₂ := (hs₁.and hs₂).congr fun r => by simp
  refine ⟨h.addTopLevel hyields hfresh, fun other hother => ?_⟩
  rw [← hyields.topLevels_eq]
  exact (s₂.graph.find?_addTopLevel name other t).trans (if_neg hother)

/-- The targets of several references are converted one after another: by induction on the references.
As their names are different, no name is given twice. -/
theorem convertEntries_whole (limit : Option Nat) (extent : Extent) (root : Json)
    (rootAddress : String) {entries : List (String × Reference)}
    (hnodup : (entries.map Prod.fst).Nodup) (h : s.Whole)
    (hfresh : ∀ e ∈ entries, s.graph.topLevels.find? e.1 = none) :
    Returns (entries.forM fun e => convertTopLevel limit extent root rootAddress e.1 e.2) s
      fun _ s' => s'.Whole := by
  induction entries generalizing s with
  | nil => exact Meets.pure h
  | cons entry rest ih =>
    obtain ⟨hfirst, hrest⟩ := List.nodup_cons.1 hnodup
    obtain ⟨hentry, hfreshRest⟩ := List.forall_mem_cons.1 hfresh
    unfold List.forM
    refine (convertTopLevel_whole h limit extent root rootAddress entry.2 hentry).seq ?_
    rintro _ s₁ ⟨hs₁, hothers⟩
    refine ih hrest hs₁ fun e he => ?_
    rw [hothers e.1, hfreshRest e he]
    intro heq
    exact hfirst (heq ▸ List.mem_map_of_mem he)

/-- After a run that succeeds, everything is finished and hangs on a name. -/
theorem convertAll_whole (documents : σ) (limit : Option Nat) (root : Json) (rootAddress : String)
    (topLevels : SortedMap String Reference) :
    Returns (convertAll limit root rootAddress topLevels) (Progress.start documents)
      fun _ s => s.Whole := by
  refine Meets.andThen (Meets.get ?_)
  refine convertEntries_whole limit _ root rootAddress (nodup_names topLevels)
    (.start documents) fun e _ => ?_
  rfl

/-- A run that succeeds leaves nothing half-built and nothing stray, whatever the documents and the
references are. -/
theorem convertAll_complete {documents : σ} {limit : Option Nat} {root : Json} {rootAddress : String}
    {topLevels : SortedMap String Reference}
    (hrun : convertAll limit root rootAddress topLevels (Progress.start documents) = .ok () s) :
    s.graph.Complete :=
  ((convertAll_whole documents limit root rootAddress topLevels).of_eq_ok hrun).complete

/-- The graph of the list is complete. -/
theorem convertAll_complete_list :
    ∃ s, convertAll (some 8) listCorpus.root listCorpus.rootAddress listEntries
        (Progress.start listCorpus.store) = .ok () s ∧ s.graph.Complete := by
  have hsucceeds : succeeds
      (convertAll (some 8) listCorpus.root listCorpus.rootAddress listEntries)
      (Progress.start listCorpus.store) = true := by decide +kernel
  obtain ⟨_, s, hrun⟩ := exists_eq_ok hsucceeds
  exact ⟨s, hrun, convertAll_complete hrun⟩

end Conversion

end ShapeGraph
