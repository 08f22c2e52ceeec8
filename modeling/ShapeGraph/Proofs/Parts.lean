import ShapeGraph.Proofs.Invariant

/-!
# What the parts of a schema become

The conversion of a schema puts together what its keywords contribute.  For each keyword, its
contribution is the node that has been described for it, and if there is none, something that is met
from the schema has the wrong shape.

## Main definitions

* `Corpus.Stage` — the conversion of a schema has reached one of its parts.
* `Conversion.Builds` — a conversion builds on what there is, or something it meets is to blame.

## Main results

* `Conversion.fillOr_then` — a node that waits for members gets them.
* `Conversion.convertEnum_meets` — the node of an `enum`.
* `Conversion.convertAllOf_builds`, `Conversion.convertChoice_builds` — what combinators contribute.
* `Conversion.convertObject_builds`, `Conversion.convertArray_builds` — the nodes of an object and an
  array type.
* `Conversion.convertTypes_builds` — the node for what the `type` field names.

## Design

The key of an object type must be free when its conversion begins.  An array type does not touch the
keys next to it, so they are still free after it; and as no type is named twice, the key of the one
object type is not needed any more once it is taken.
-/

set_option autoImplicit false

namespace ShapeGraph

/-- The conversion of the schema at a place has reached one of its parts: no reference is being
followed. -/
structure Corpus.Stage (c : Corpus) (pending : List Reference) (place : Place)
    (s : Progress MemoryStore) : Prop where
  located : c.Located place
  is_schema : place.IsSchema
  sound : s.Sound c pending
  chain_eq : s.chain = []

namespace Conversion

open Progress

variable {α : Type} {c : Corpus} {recur : Converter MemoryStore} {pending own : List Reference}
  {place : Place} {s s' : Progress MemoryStore}

/-- Run from `s`, the conversion builds on what there is and gives a result of which `post` holds.  If
it fails, something that is met from `path` is to blame. -/
def Builds (c : Corpus) (pending own : List Reference) (path : Reference)
    (x : Conversion MemoryStore α) (s : Progress MemoryStore)
    (post : α → Progress MemoryStore → Prop) : Prop :=
  Meets x s (fun a s' => s.Advances c pending own s' ∧ post a s') fun e _ => c.Blames path e

end Conversion

namespace Corpus.Stage

open Progress Conversion

variable {c : Corpus} {recur : Converter MemoryStore} {pending own : List Reference}
  {place : Place} {s s' : Progress MemoryStore}

theorem advance (h : c.Stage pending place s) (hs : s.Advances c pending own s') :
    c.Stage pending place s' :=
  ⟨h.located, h.is_schema, hs.sound, hs.grows.chain_eq.trans h.chain_eq⟩

/-- A schema with fields of the wrong shape is to blame. -/
theorem blames (h : c.Stage pending place s) (hshape : ¬ place.fragment.SchemaShaped) {e : Failure}
    (he : e.isLogicFault = false) : c.Blames place.path e :=
  h.located.blames (fun hshaped => hshape ((shaped_iff_of_isSchema h.is_schema).1 hshaped))
    (fun _ => not_endless_of_no_reference h.is_schema.no_reference) he

/-- A schema inside the one at hand may be converted. -/
theorem inner (h : c.Stage pending place s) (hrec : SoundConverter c recur) {child : Place}
    (hinner : place.Inner child)
    (hchild : (∃ t, s.nodeOf? child.path = some t) ∨ c.Located child) (hints : Names) :
    Builds c pending [] place.path (recur child hints) s
      (fun t s' => s'.nodeOf? child.path = some t) := by
  have hready : c.Ready s child := by
    refine ⟨hinner.isAddressable, ?_, hchild⟩
    rw [h.chain_eq]
    exact fun path hpath => absurd hpath List.not_mem_nil
  refine (hrec pending child hints s h.sound hready).mono (fun _ _ ht => ht) fun e _ he => ?_
  exact he.of_step (h.located.step_inner h.is_schema hinner)

end Corpus.Stage

namespace Conversion

open Progress

variable {α : Type} {c : Corpus} {recur : Converter MemoryStore} {pending own : List Reference}
  {place : Place} {s s' : Progress MemoryStore}

/-! ## Nodes -/

/-- Some members, or the node of any type if there are none. -/
theorem orAny_builds (own : List Reference) (h : s.Sound c pending) {path : Reference}
    {members : SortedSet NodeId} {nodes : List NodeId} (hmembers : members.Lists nodes) :
    Builds c pending own path (orAny members) s
      (fun members s' => members.ListsOr s'.IsAny nodes) := by
  unfold orAny
  split
  · next hempty =>
    refine Meets.andThen (h.intern own rfl fun any s₁ hs₁ hany _ => ?_)
    refine Meets.pure ⟨hs₁, (if_pos (hmembers.isEmpty_iff.1 hempty)).mpr ?_⟩
    exact ⟨any, hany, SortedSet.lists_singleton any⟩
  · next hempty =>
    refine Meets.pure ⟨h.advances own, (if_neg (mt hmembers.isEmpty_iff.2 hempty)).mpr hmembers⟩

/-- Some members, or a map of anything if there are none. -/
theorem orAnyMap_builds (own : List Reference) (h : s.Sound c pending) {path : Reference}
    {members : SortedSet NodeId} {nodes : List NodeId} (hmembers : members.Lists nodes) :
    Builds c pending own path (orAnyMap members) s
      (fun members s' => members.ListsOr s'.IsAnyMap nodes) := by
  unfold orAnyMap
  split
  · next hempty =>
    refine Meets.andThen (h.intern own rfl fun any s₁ hs₁ hany _ => ?_)
    refine Meets.andThen (hs₁.sound.intern own rfl fun map s₂ hs₂ hmap _ => ?_)
    refine Meets.pure ⟨hs₁.trans hs₂, (if_pos (hmembers.isEmpty_iff.1 hempty)).mpr ?_⟩
    exact ⟨map, ⟨any, IsAny.mono hs₂.retains hany, hmap⟩, SortedSet.lists_singleton map⟩
  · next hempty =>
    refine Meets.pure ⟨h.advances own, (if_neg (mt hmembers.isEmpty_iff.2 hempty)).mpr hmembers⟩

/-- A node that waits for members gets some, or what stands in for them if there are none. -/
theorem fillOr_then {base : Progress MemoryStore} (hbase : base.Advances c pending own s)
    {t : NodeId} {operation : Operation} (hnew : base.graph.shape? t = none)
    (ht : s.graph.shape? t = some (.combination operation none)) {path : Reference}
    {complete : Conversion MemoryStore (SortedSet NodeId)}
    {other : Progress MemoryStore → NodeId → Prop} {nodes : List NodeId}
    (hcomplete : Builds c pending own path complete s
      (fun members s' => members.ListsOr (other s') nodes))
    (hother : ∀ {s s' : Progress MemoryStore}, s.Retains s' → ∀ {n}, other s n → other s' n)
    {rest : Unit → Conversion MemoryStore α} {post : α → Progress MemoryStore → Prop}
    (hrest : ∀ s', base.Advances c pending own s' → s.Retains s' →
      s'.CombinesOr (other s') operation t nodes →
        Meets (rest ()) s' post fun e _ => c.Blames path e) :
    Meets (complete >>= fun members => setMembers t members >>= rest) s post
      fun e _ => c.Blames path e := by
  refine hcomplete.seq fun members s₁ ⟨hs₁, hmembers⟩ => ?_
  have hunset := hs₁.grows.keeps _ _ ht
  refine Meets.andThen ((hbase.trans hs₁).fill hnew hunset members fun s₂ hs₂ hs₁₂ hshape _ => ?_)
  refine hrest s₂ hs₂ (hs₁.retains.trans hs₁₂) ⟨members, hshape, ?_⟩
  exact hmembers.imp fun n hn => hother hs₁₂ hn

/-- A union of given nodes, with attributes. -/
theorem union_meets (own : List Reference) (h : s.Sound c pending) (members : SortedSet NodeId)
    (attributes : Attributes) {post : NodeId → Progress MemoryStore → Prop}
    {fault : Failure → Progress MemoryStore → Prop}
    (hpost : ∀ t s', s.Advances c pending own s' →
      s'.graph.shape? t = some (.combination .union (some members)) →
        (∀ path, s'.nodeOf? path = s.nodeOf? path) → post t s') :
    Meets (do
      let union ← declare .union
      setMembers union members
      addAttributes union attributes
      return union) s post fault := by
  refine Meets.andThen (h.declare own .union fun union s₁ hs₁ hnew hunset hbound₁ => ?_)
  refine Meets.andThen (hs₁.fill hnew hunset members fun s₂ hs₂ _ hunion hbound₂ => ?_)
  refine Meets.andThen (hs₂.sound.addAttributes own union attributes
    fun s₃ hs₃ hshape hbound₃ => ?_)
  refine Meets.pure (hpost union s₃ (hs₂.trans hs₃) ((hshape union).trans hunion) fun path => ?_)
  rw [hbound₃, hbound₂, hbound₁]

/-! ## Enums -/

/-- The node of an `enum`.  Nothing is bound, and a failure means that it is no list of strings and
nulls. -/
theorem convertEnum_meets (own : List Reference) (h : s.Sound c pending) (cases : Json)
    (path : Reference) (attributes : Attributes) :
    Meets (convertEnum cases path attributes) s
      (fun t s' => s.Advances c pending own s' ∧ (∀ other, s'.nodeOf? other = s.nodeOf? other) ∧
        s'.EnumNode cases t)
      (fun e _ => e.isLogicFault = false ∧
        ¬ ∃ items, cases = .arr items ∧ Json.EnumListed items) := by
  unfold convertEnum
  cases cases with
  | arr items =>
    dsimp only
    cases hcases : enumCases items with
    | error case =>
      refine Meets.throw ⟨rfl, ?_⟩
      rintro ⟨found, hfound, hlisted⟩
      cases hfound
      exact enumCases_eq_error hcases hlisted
    | ok result =>
      obtain ⟨texts, nullable⟩ := result
      obtain ⟨hlisted, rfl, hnullable⟩ := enumCases_eq_ok hcases
      refine Meets.andThen (h.intern own rfl fun null s₁ hs₁ hnull hbound₁ => ?_)
      split
      · next honly =>
        rw [Bool.and_eq_true, List.isEmpty_iff] at honly
        refine Meets.pure ⟨hs₁, hbound₁, items, rfl, hlisted, Or.inr (Or.inl ?_)⟩
        exact ⟨hnullable.1 honly.2, honly.1, hnull⟩
      · next hnotOnly =>
        refine Meets.andThen (hs₁.sound.intern own rfl fun enum s₂ hs₂ henum hbound₂ => ?_)
        refine Meets.andThen (hs₂.sound.addAttributes own enum attributes
          fun s₃ hs₃ hshape hbound₃ => ?_)
        have hbound : ∀ other, s₃.nodeOf? other = s.nodeOf? other := fun other => by
          rw [hbound₃, hbound₂, hbound₁]
        have hadvances := (hs₁.trans hs₂).trans hs₃
        rw [← hshape] at henum
        split
        · next hnull' =>
          refine union_meets own hs₃.sound _ attributes fun union s₄ hs₄ hunion hbound₄ => ?_
          have hnull₄ := ((hs₂.trans hs₃).trans hs₄).retains.graph _ _ rfl hnull
          have hbound₀ := fun other => (hbound₄ other).trans (hbound other)
          refine ⟨hadvances.trans hs₄, hbound₀, items, rfl, hlisted, ?_⟩
          refine Or.inr (Or.inr ⟨hnullable.1 hnull', fun htexts => hnotOnly ?_, enum, null, ?_⟩)
          · rw [htexts, hnull']
            rfl
          · refine ⟨hs₄.retains.graph _ _ rfl henum, hnull₄, _, hunion, fun n => ?_⟩
            rw [SortedSet.mem_insert, SortedSet.mem_singleton, List.mem_cons, List.mem_singleton,
              or_comm]
        · next hnotNull =>
          refine Meets.pure ⟨hadvances, hbound, items, rfl, hlisted, Or.inl ⟨?_, henum⟩⟩
          exact fun hmem => hnotNull (hnullable.2 hmem)
  | null | bool _ | num _ | str _ | obj _ =>
    refine Meets.throw ⟨rfl, ?_⟩
    rintro ⟨items, hitems, -⟩
    cases hitems

/-! ## Lists of schemas -/

/-- Paths that differ in their last step only, given by an index from `i` on. -/
def siblingPaths (path : Reference) (step : Nat → PathElement) (i count : Nat) : List Reference :=
  (List.range' i count).map fun k => path.push (step k)

/-- The nodes of schemas that stand side by side inside the one at hand. -/
theorem convertSiblings_builds (hrec : SoundConverter c recur) {parent : Place}
    {step : Nat → PathElement} {i : Nat} {schemas : List Json}
    (hinner : ∀ k schema, schemas[k]? = some schema →
      place.Inner ⟨parent.document, schema, parent.path.push (step (i + k))⟩ ∧
        c.Located ⟨parent.document, schema, parent.path.push (step (i + k))⟩)
    (h : c.Stage pending place s) (hints : Names) :
    Builds c pending [] place.path (convertSiblings recur parent step hints i schemas) s
      (fun members s' => ∃ nodes,
        s'.Binds (siblingPaths parent.path step i schemas.length) nodes ∧ members.Lists nodes) := by
  induction schemas generalizing i s with
  | nil => exact Meets.pure ⟨h.sound.advances [], [], List.Forall₂.nil, SortedSet.lists_empty⟩
  | cons schema rest ih =>
    obtain ⟨hfirst, hlocated⟩ := hinner 0 schema rfl
    refine (h.inner hrec hfirst (Or.inr hlocated) hints).seq fun t s₁ ⟨hs₁, ht⟩ => ?_
    have hrest : ∀ k schema, rest[k]? = some schema →
        place.Inner ⟨parent.document, schema, parent.path.push (step (i + 1 + k))⟩ ∧
          c.Located ⟨parent.document, schema, parent.path.push (step (i + 1 + k))⟩ := by
      intro k schema hschema
      have hnext := hinner (k + 1) schema hschema
      rwa [show i + (k + 1) = i + 1 + k by omega] at hnext
    refine (ih hrest (h.advance hs₁)).seq fun members s₂ ⟨hs₂, nodes, hnodes, hmembers⟩ => ?_
    refine Meets.pure ⟨hs₁.trans hs₂, t :: nodes, ?_, hmembers.insert t⟩
    unfold siblingPaths
    rw [List.length_cons, List.range'_succ, List.map_cons]
    exact List.Forall₂.cons (hs₂.retains.bound _ _ ht) hnodes

/-- The nodes of the schemas under a combinator. -/
theorem convertCases_builds (hrec : SoundConverter c recur) {combinator : Combinator} {cases : Json}
    (hcases : place.fragment.get? combinator.keyword = some cases)
    (h : c.Stage pending place s) (hints : Names) :
    Builds c pending [] place.path (convertCases recur place combinator cases hints) s
      (fun members s' => ∃ schemas nodes, cases = .arr schemas ∧
        s'.Binds (branchPaths place.path combinator schemas) nodes ∧ members.Lists nodes) := by
  unfold convertCases
  cases cases with
  | arr schemas =>
    have hinner : ∀ k schema, schemas[k]? = some schema →
        place.Inner ⟨place.document, schema, place.path.push (.branch combinator (0 + k))⟩ ∧
          c.Located ⟨place.document, schema, place.path.push (.branch combinator (0 + k))⟩ := by
      intro k schema hschema
      rw [Nat.zero_add]
      exact ⟨.branch hcases hschema, h.located.branch hcases hschema⟩
    refine (convertSiblings_builds hrec hinner h hints).imp ?_
    rintro members s' ⟨hs', nodes, hnodes, hmembers⟩
    refine ⟨hs', schemas, nodes, rfl, ?_, hmembers⟩
    unfold branchPaths
    rwa [List.range_eq_range']
  | null | bool _ | num _ | str _ | obj _ =>
    refine Meets.throw (h.blames (fun hshape => ?_) rfl)
    obtain ⟨schemas, hschemas⟩ := hshape.combinators combinator _ hcases
    cases hschemas

/-- What `allOf` contributes. -/
theorem convertAllOf_builds (hrec : SoundConverter c recur) (h : c.Stage pending place s)
    (hints : Names) :
    Builds c pending [] place.path (convertAllOf recur place hints) s
      (fun members s' => ∃ nodes, s'.AllOfNodes place nodes ∧ members.Lists nodes) := by
  unfold convertAllOf AllOfNodes
  cases hcases : place.fragment.get? Combinator.allOf.keyword with
  | none => exact Meets.pure ⟨h.sound.advances [], [], rfl, SortedSet.lists_empty⟩
  | some cases =>
    refine (convertCases_builds hrec hcases h hints).imp ?_
    rintro members s' ⟨hs', schemas, nodes, rfl, hnodes, hmembers⟩
    exact ⟨hs', nodes, hnodes, hmembers⟩

/-- What `oneOf` or `anyOf` contributes. -/
theorem convertChoice_builds (hrec : SoundConverter c recur) (combinator : Combinator)
    (h : c.Stage pending place s) (hints : Names) :
    Builds c pending [] place.path (convertChoice recur place combinator hints) s
      (fun members s' => ∃ t?, s'.ChoiceNode place combinator t? ∧ members.Lists t?.toList) := by
  unfold convertChoice ChoiceNode
  cases hcases : place.fragment.get? combinator.keyword with
  | none => exact Meets.pure ⟨h.sound.advances [], none, rfl, SortedSet.lists_empty⟩
  | some cases =>
    refine Meets.andThen (h.sound.declare [] .union fun union s₁ hs₁ hnew hunion _ => ?_)
    refine (convertCases_builds hrec hcases (h.advance hs₁) hints).seq fun members s₂ hspec => ?_
    obtain ⟨hs₂, schemas, nodes, rfl, hnodes, hmembers⟩ := hspec
    have hunset := hs₂.grows.keeps _ _ hunion
    refine Meets.andThen ((hs₁.trans hs₂).fill hnew hunset members fun s₃ hs₃ hs₂₃ hshape _ => ?_)
    refine Meets.pure ⟨hs₃, some union, ?_, SortedSet.lists_singleton union⟩
    exact ⟨union, nodes, rfl, hnodes.mono hs₂₃, members, hshape, hmembers⟩

/-! ## Arrays -/

section Arrays

variable {path : Reference} (harray : ("array", path) ∈ place.typePaths)

include harray

/-- Items of the wrong shape are to blame. -/
theorem blames_items (h : c.Stage pending place s) {items : Json}
    (hitems : place.fragment.get? "items" = some items) (hbool : ∀ b, items ≠ .bool b)
    (hobj : ∀ members, items ≠ .obj members) (harr : ∀ positions, items ≠ .arr positions)
    {e : Failure} (he : e.isLogicFault = false) : c.Blames place.path e := by
  refine h.blames (fun hshape => ?_) he
  obtain ⟨b, hb⟩ | ⟨members, hmembers⟩ | ⟨positions, hpositions⟩ :=
    hshape.array (Place.mem_typePaths harray).1 items hitems
  · exact hbool b hb
  · exact hobj members hmembers
  · exact harr positions hpositions

/-- The node of the items when one schema describes all of them. -/
theorem convertItem_builds (hrec : SoundConverter c recur) (h : c.Stage pending place s)
    {schema : Json} (hschema : place.fragment.get? "items" = some schema)
    (hshape : (∃ b, schema = .bool b) ∨ ∃ members, schema = .obj members) (hints : Names) :
    Builds c pending [] place.path
      (recur ⟨place.document, schema, path.push (.key "items")⟩ hints) s
      (fun t s' => s'.nodeOf? (path.push (.key "items")) = some t) := by
  have hlocated := (h.located.typePath harray).push (e := .key "items") (Json.part?_of_get? hschema)
  exact h.inner hrec (.items harray hschema hshape) (Or.inr hlocated) hints

/-- The node of the items when there is a schema for each position. -/
theorem convertPositions_builds (hrec : SoundConverter c recur) (h : c.Stage pending place s)
    {positions : List Json} (hpositions : place.fragment.get? "items" = some (.arr positions))
    (hints : Names) :
    Builds c pending [] place.path
      (convertSiblings recur ⟨place.document, place.fragment, path.push (.key "items")⟩
        (fun i => .key (toString i)) hints 0 positions) s
      (fun members s' => ∃ nodes,
        s'.Binds (positionPaths path positions) nodes ∧ members.Lists nodes) := by
  have hlocated := h.located.typePath harray
  refine (convertSiblings_builds hrec ?_ h hints).imp ?_
  · intro k schema hschema
    rw [Nat.zero_add]
    exact ⟨.position harray hpositions hschema, hlocated.position hpositions hschema⟩
  · rintro members s' ⟨hs', nodes, hnodes, hmembers⟩
    refine ⟨hs', nodes, ?_, hmembers⟩
    unfold positionPaths
    rwa [List.range_eq_range']

/-- The node of an array type's items. -/
theorem convertItems_builds (hrec : SoundConverter c recur) (h : c.Stage pending place s)
    (hints : Names) :
    Builds c pending [] place.path
      (convertItems recur ⟨place.document, place.fragment, path⟩ hints) s
      (fun t s' => s'.ItemsNode place.fragment path t) := by
  unfold convertItems ItemsNode
  dsimp only
  cases hitems : place.fragment.get? "items" with
  | none => exact h.sound.intern [] rfl fun any s₁ hs₁ hany _ => ⟨hs₁, hany⟩
  | some items =>
    cases items with
    | bool b => exact convertItem_builds harray hrec h hitems (Or.inl ⟨b, rfl⟩) hints.singular
    | obj members =>
      exact convertItem_builds harray hrec h hitems (Or.inr ⟨members, rfl⟩) hints.singular
    | arr positions =>
      refine Meets.andThen (h.sound.declare [] .union fun union s₁ hs₁ hnew hunion _ => ?_)
      refine (convertPositions_builds harray hrec (h.advance hs₁) hitems hints.singular).seq
        fun members s₂ ⟨hs₂, nodes, hnodes, hmembers⟩ => ?_
      have hunset := hs₂.grows.keeps _ _ hunion
      refine fillOr_then (hs₁.trans hs₂) hnew hunset (orAny_builds [] hs₂.sound hmembers) IsAny.mono
        fun s₃ hs₃ hs₂₃ hcombines => ?_
      exact Meets.pure ⟨hs₃, nodes, hnodes.mono hs₂₃, hcombines⟩
    | null | num _ | str _ =>
      exact Meets.throw (blames_items harray h hitems (by simp) (by simp) (by simp) rfl)

/-- The node of an array type. -/
theorem convertArray_builds (hrec : SoundConverter c recur) (h : c.Stage pending place s)
    (hints : Names) :
    Builds c pending [] place.path
      (convertArray recur ⟨place.document, place.fragment, path⟩ hints) s
      (fun t s' => ∃ items, s'.ItemsNode place.fragment path items ∧
        s'.graph.shape? t = some (.array items)) := by
  unfold convertArray
  refine (convertItems_builds harray hrec h hints).seq fun items s₁ ⟨hs₁, hitems⟩ => ?_
  exact hs₁.sound.intern [] rfl fun array s₂ hs₂ harray _ =>
    ⟨hs₁.trans hs₂, items, hitems.mono hs₂.retains, harray⟩

end Arrays

/-! ## Objects -/

section Objects

variable {path : Reference} (hobject : ("object", path) ∈ place.typePaths)

include hobject

/-- The fields of an object type, if they have the wrong shape, are to blame. -/
theorem blames_fields (h : c.Stage pending place s) (hshape : ¬ place.fragment.ObjectShaped)
    {e : Failure} (he : e.isLogicFault = false) : c.Blames place.path e :=
  h.blames (fun hshaped => hshape (hshaped.object (Place.mem_typePaths hobject).1)) he

/-- The properties of a class.  When a name occurs for the second time, its path is bound already. -/
theorem convertMembers_builds (hrec : SoundConverter c recur) {members before rest :
    List (String × Json)} (hmembers : place.fragment.get? "properties" = some (.obj members))
    (hsplit : members = before ++ rest) {required : List String}
    (hrequired : ∀ name, name ∈ required ↔ place.fragment.Requires name)
    (h : c.Stage pending place s)
    (hbefore : ∀ member ∈ before, ∃ t,
      s.nodeOf? (path.pushKeys ["properties", member.1]) = some t) :
    Builds c pending [] place.path
      (convertMembers recur ⟨place.document, place.fragment, path⟩ required rest) s
      (fun properties s' => List.Forall₂ (fun member property => property.name = member.1 ∧
        s'.nodeOf? (path.pushKeys ["properties", member.1]) = some property.target ∧
          (property.optional = true ↔ ¬ place.fragment.Requires member.1)) rest properties) := by
  induction rest generalizing before s with
  | nil => exact Meets.pure ⟨h.sound.advances [], List.Forall₂.nil⟩
  | cons member rest ih =>
    obtain ⟨name, schema⟩ := member
    have hinner : place.Inner ⟨place.document, schema, path.pushKeys ["properties", name]⟩ :=
      .property hobject hmembers (by rw [hsplit]; simp)
    have hchild : (∃ t, s.nodeOf? (path.pushKeys ["properties", name]) = some t) ∨
        c.Located ⟨place.document, schema, path.pushKeys ["properties", name]⟩ := by
      cases hlookup : before.lookup name with
      | some earlier =>
        obtain ⟨l, k, hl, -⟩ := List.lookup_eq_some_iff.1 hlookup
        exact Or.inl (hbefore (name, earlier) (by rw [hl]; simp))
      | none =>
        refine Or.inr ((h.located.typePath hobject).property hmembers ?_)
        rw [hsplit, List.lookup_append, hlookup]
        simp
    refine (h.inner hrec hinner hchild _).seq fun t s₁ ⟨hs₁, ht⟩ => ?_
    have hbefore₁ : ∀ member ∈ before ++ [(name, schema)], ∃ t,
        s₁.nodeOf? (path.pushKeys ["properties", member.1]) = some t := by
      intro member hmember
      rcases List.mem_append.1 hmember with hmember | hmember
      · exact (hbefore member hmember).imp fun n hn => hs₁.retains.bound _ _ hn
      · obtain rfl := List.mem_singleton.1 hmember
        exact ⟨t, ht⟩
    have hsplit₁ : members = (before ++ [(name, schema)]) ++ rest := by
      rw [hsplit, List.append_assoc]
      rfl
    refine (ih hsplit₁ (h.advance hs₁) hbefore₁).seq fun properties s₂ ⟨hs₂, hproperties⟩ => ?_
    refine Meets.pure ⟨hs₁.trans hs₂, List.Forall₂.cons ⟨rfl, ?_, ?_⟩ hproperties⟩
    · exact hs₂.retains.bound _ _ ht
    · rw [← hrequired name]
      simp

/-- What `properties` contributes. -/
theorem convertProperties_builds (hrec : SoundConverter c recur) (h : c.Stage pending place s)
    (attributes : Attributes) :
    Builds c pending [] place.path
      (convertProperties recur ⟨place.document, place.fragment, path⟩ attributes) s
      (fun members s' => ∃ record?, s'.ClassNode place.fragment path record? ∧
        members.Lists record?.toList) := by
  unfold convertProperties ClassNode
  cases hproperties : place.fragment.get? "properties" with
  | none => exact Meets.pure ⟨h.sound.advances [], none, rfl, SortedSet.lists_empty⟩
  | some value =>
    cases value with
    | obj members =>
      dsimp only
      cases hnames : requiredNames place.fragment path with
      | error e =>
        obtain ⟨⟨fault, rfl⟩, hlisted⟩ := requiredNames_eq_error hnames
        refine Meets.andThen (Meets.throw (blames_fields hobject h (fun hshape => hlisted ?_) rfl))
        exact hshape.required (Json.has_eq_true_iff.2 ⟨_, hproperties⟩)
      | ok required =>
        obtain ⟨hlisted, hrequired⟩ := requiredNames_eq_ok hnames
        refine Meets.andThen (Meets.pure ?_)
        refine (convertMembers_builds hobject hrec hproperties (List.nil_append members).symm
          hrequired h (fun _ hmem => absurd hmem List.not_mem_nil)).seq
            fun properties s₁ ⟨hs₁, hall⟩ => ?_
        refine Meets.andThen (hs₁.sound.intern [] rfl fun record s₂ hs₂ hrecord _ => ?_)
        refine Meets.andThen (hs₂.sound.addAttributes [] record attributes
          fun s₃ hs₃ hshape _ => ?_)
        have hs₁₃ := hs₂.trans hs₃
        refine Meets.pure ⟨hs₁.trans hs₁₃, some record, ?_, SortedSet.lists_singleton record⟩
        refine ⟨hlisted, record, properties, rfl, (hshape record).trans hrecord, ?_⟩
        exact hall.imp fun member property ⟨hname, htarget, hoptional⟩ =>
          ⟨hname, hs₁₃.retains.bound _ _ htarget, hoptional⟩
    | null | bool _ | num _ | str _ | arr _ =>
      refine Meets.throw (blames_fields hobject h (fun hshape => ?_) rfl)
      obtain ⟨members, hmembers⟩ := hshape.properties _ hproperties
      cases hmembers

/-- What `additionalProperties` contributes. -/
theorem convertAdditional_builds (hrec : SoundConverter c recur) (h : c.Stage pending place s)
    (hints : Names) :
    Builds c pending [] place.path
      (convertAdditional recur ⟨place.document, place.fragment, path⟩ hints) s
      (fun members s' => ∃ map?, s'.MapNode place.fragment path map? ∧
        members.Lists map?.toList) := by
  unfold convertAdditional MapNode
  dsimp only
  cases hadditional : place.fragment.get? "additionalProperties" with
  | none => exact Meets.pure ⟨h.sound.advances [], none, rfl, SortedSet.lists_empty⟩
  | some value =>
    cases value with
    | bool b =>
      cases b with
      | false =>
        dsimp only
        split
        · exact Meets.pure ⟨h.sound.advances [], none, rfl, SortedSet.lists_empty⟩
        · refine Meets.andThen (h.sound.intern [] rfl fun record s₁ hs₁ hrecord _ => ?_)
          exact Meets.pure ⟨hs₁, some record, ⟨record, rfl, hrecord⟩,
            SortedSet.lists_singleton record⟩
      | true =>
        refine Meets.andThen (h.sound.intern [] rfl fun any s₁ hs₁ hany _ => ?_)
        refine Meets.andThen (hs₁.sound.intern [] rfl fun map s₂ hs₂ hmap _ => ?_)
        exact Meets.pure ⟨hs₁.trans hs₂, some map,
          ⟨map, rfl, any, IsAny.mono hs₂.retains hany, hmap⟩, SortedSet.lists_singleton map⟩
    | obj members =>
      have hlocated := (h.located.typePath hobject).push (e := .key "additionalProperties")
        (Json.part?_of_get? hadditional)
      refine (h.inner hrec (.additional hobject hadditional) (Or.inr hlocated) hints.singular).seq
        fun values s₁ ⟨hs₁, hvalues⟩ => ?_
      refine Meets.andThen (hs₁.sound.intern [] rfl fun map s₂ hs₂ hmap _ => ?_)
      exact Meets.pure ⟨hs₁.trans hs₂, some map,
        ⟨map, values, rfl, hs₂.retains.bound _ _ hvalues, hmap⟩, SortedSet.lists_singleton map⟩
    | null | num _ | str _ | arr _ =>
      refine Meets.throw (blames_fields hobject h (fun hshape => ?_) rfl)
      obtain ⟨b, hb⟩ | ⟨members, hmembers⟩ := hshape.additional _ hadditional
      · cases hb
      · cases hmembers

end Objects

/-- The node of an object type.  Its path is a key of the schema's own, and it is free. -/
theorem convertObject_builds (hrec : SoundConverter c recur) {e : PathElement}
    (he : e.isAddressable = false) (hobject : ("object", place.path.push e) ∈ place.typePaths)
    (h : c.Stage pending place s) (hfree : s.nodeOf? (place.path.push e) = none)
    (hbound : ∃ t, s.nodeOf? place.path = some t) (attributes : Attributes) :
    Builds c pending [place.path] place.path
      (convertObject recur ⟨place.document, place.fragment, place.path.push e⟩ attributes) s
      (fun t s' => s'.ObjectNode place.fragment (place.path.push e) t) := by
  unfold convertObject
  refine Meets.andThen (h.sound.declare [place.path] .union
    fun union s₁ hs₁ hnew hunion hbound₁ => ?_)
  rw [← hbound₁] at hfree
  have hbound' : ∃ t, s₁.nodeOf? place.path = some t :=
    hbound.imp fun t ht => hs₁.retains.bound _ _ ht
  refine Meets.andThen (hs₁.sound.bindType (List.mem_singleton.2 rfl) he hfree hbound' union
    fun s₂ hs₂ hkey hgraph => ?_)
  have hs₀₂ := hs₁.trans hs₂
  refine (convertProperties_builds hobject hrec (h.advance hs₀₂) attributes).seq
    fun records s₃ ⟨hs₃, record?, hrecord, hrecords⟩ => ?_
  have hstage₃ := (h.advance hs₀₂).advance hs₃
  refine (convertAdditional_builds hobject hrec hstage₃ attributes.names).seq
    fun maps s₄ ⟨hs₄, map?, hmap, hmaps⟩ => ?_
  have hs₂₄ := hs₃.trans hs₄
  have hunset : s₄.graph.shape? union = some (.combination .union none) :=
    hs₂₄.grows.keeps _ _ (hs₂.grows.keeps _ _ hunion)
  refine fillOr_then (hs₀₂.trans hs₂₄.weaken) hnew hunset
    (orAnyMap_builds [place.path] hs₄.sound (hrecords.union hmaps)) IsAnyMap.mono
    fun s₅ hs₅ hs₄₅ hcombines => ?_
  refine Meets.andThen (hs₅.sound.addAttributes [place.path] union attributes
    fun s₆ hs₆ hshape₆ _ => ?_)
  have hobject₅ : s₅.ObjectNode place.fragment (place.path.push e) union :=
    ⟨hs₄₅.bound _ _ (hs₂₄.retains.bound _ _ hkey), record?, map?,
      (hrecord.mono hs₄.retains).mono hs₄₅, hmap.mono hs₄₅, hcombines⟩
  exact Meets.pure ⟨hs₅.trans hs₆, hobject₅.mono hs₆.retains⟩

/-! ## Types -/

/-- The node of a type that a schema names, other than the object type.  The keys next to it are not
touched. -/
theorem convertOtherType_builds (hrec : SoundConverter c recur) {name : String} {path : Reference}
    (hname : name ≠ "object") (hpath : (name, path) ∈ place.typePaths)
    (h : c.Stage pending place s) (attributes : Attributes) :
    Builds c pending [] place.path
      (convertType recur ⟨place.document, place.fragment, path⟩ name attributes) s
      (fun t s' => s'.TypeNode place.fragment name path t) := by
  unfold convertType TypeNode
  cases htype : TypeName.ofText? name with
  | none =>
    refine Meets.throw (h.blames (fun hshape => ?_) rfl)
    have hknown := hshape.types_known name (Place.mem_typePaths hpath).1
    exact TypeName.ofText?_eq_none_iff.1 htype hknown
  | some type =>
    cases type with
    | object => exact absurd (TypeName.ofText?_eq_object htype) hname
    | array =>
      obtain rfl := TypeName.ofText?_eq_array htype
      exact convertArray_builds hpath hrec h attributes.names
    | boolean | null | integer | number | string =>
      exact h.sound.intern [] rfl fun t s' hs' ht _ => ⟨hs', ht⟩

/-- The node of a type that a schema names.  If it is the object type, its path is a key of the
schema's own, and it is free. -/
theorem convertType_builds (hrec : SoundConverter c recur) {name : String} {path : Reference}
    (hpath : (name, path) ∈ place.typePaths) (h : c.Stage pending place s)
    (hbound : ∃ t, s.nodeOf? place.path = some t)
    (hfree : name = "object" → s.nodeOf? path = none ∧
      ∃ e : PathElement, e.isAddressable = false ∧ path = place.path.push e)
    (attributes : Attributes) :
    Builds c pending [place.path] place.path
      (convertType recur ⟨place.document, place.fragment, path⟩ name attributes) s
      (fun t s' => s'.TypeNode place.fragment name path t ∧
        (name ≠ "object" → s.Advances c pending [] s')) := by
  by_cases hname : name = "object"
  · subst hname
    obtain ⟨hfree, e, he, rfl⟩ := hfree rfl
    refine (convertObject_builds hrec he hpath h hfree hbound attributes).imp ?_
    exact fun t s' ⟨hs', ht⟩ => ⟨hs', ht, fun hne => absurd rfl hne⟩
  · refine (convertOtherType_builds hrec hname hpath h attributes).imp ?_
    exact fun t s' ⟨hs', ht⟩ => ⟨hs'.weaken, ht, fun _ => hs'⟩

/-- The nodes of several types that a schema names.  The keys from `i` on are free as long as one of
them will be needed. -/
theorem convertBranches_builds (hrec : SoundConverter c recur) (attributes : Attributes) {i : Nat}
    {names : List String} (hnodup : names.Nodup)
    (hpaths : ∀ e ∈ place.branchPaths i names, e ∈ place.typePaths)
    (h : c.Stage pending place s) (hbound : ∃ t, s.nodeOf? place.path = some t)
    (hfree : "object" ∈ names → ∀ k, i ≤ k → s.nodeOf? (place.path.push (.typeBranch k)) = none) :
    Builds c pending [place.path] place.path (convertBranches recur place attributes i names) s
      (fun members s' => ∃ nodes,
        List.Forall₂ (fun e n => s'.TypeNode place.fragment e.1 e.2 n) (place.branchPaths i names)
          nodes ∧ members.Lists nodes) := by
  induction names generalizing i s with
  | nil =>
    exact Meets.pure ⟨h.sound.advances [place.path], [], List.Forall₂.nil, SortedSet.lists_empty⟩
  | cons name rest ih =>
    obtain ⟨hfirst, hrest⟩ := List.nodup_cons.1 hnodup
    have hpath := hpaths (name, place.path.push (.typeBranch i)) List.mem_cons_self
    refine (convertType_builds hrec hpath h hbound (fun hname => ?_) attributes).seq
      fun t s₁ ⟨hs₁, ht, hother⟩ => ?_
    · exact ⟨hfree (by rw [hname]; exact List.mem_cons_self) i (Nat.le_refl i), _, rfl, rfl⟩
    have hfree₁ : "object" ∈ rest → ∀ k, i + 1 ≤ k →
        s₁.nodeOf? (place.path.push (.typeBranch k)) = none := by
      intro hmem k hk
      -- no type is named twice, so this one has not touched the keys
      have hname : name ≠ "object" := fun hname => hfirst (hname ▸ hmem)
      have hnone := hfree (List.mem_cons_of_mem _ hmem) k (by omega)
      exact (hother hname).grows.fresh _ _ rfl List.not_mem_nil hbound hnone
    have hbound₁ : ∃ n, s₁.nodeOf? place.path = some n :=
      hbound.imp fun n hn => hs₁.retains.bound _ _ hn
    refine (ih hrest (fun e hmem => hpaths e (List.mem_cons_of_mem _ hmem)) (h.advance hs₁) hbound₁
      hfree₁).seq fun members s₂ ⟨hs₂, nodes, hnodes, hmembers⟩ => ?_
    exact Meets.pure ⟨hs₁.trans hs₂, t :: nodes, List.Forall₂.cons (ht.mono hs₂.retains) hnodes,
      hmembers.insert t⟩

/-- The node of the one type that a schema names. -/
theorem convertOnlyType_builds (hrec : SoundConverter c recur) {name : String}
    (hname : place.fragment.declaredTypes = [name]) (h : c.Stage pending place s)
    (hbound : ∃ t, s.nodeOf? place.path = some t)
    (hfree : ∀ e : PathElement, e.isAddressable = false → s.nodeOf? (place.path.push e) = none)
    (attributes : Attributes) :
    Builds c pending [place.path] place.path
      (convertType recur ⟨place.document, place.fragment, place.onlyTypePath name⟩ name
        attributes) s
      (fun t s' => s'.TypesNode place (some t)) := by
  have htypePaths := Place.typePaths_eq_of_singleton hname
  have hpath : (name, place.onlyTypePath name) ∈ place.typePaths := by
    rw [htypePaths]
    exact List.mem_singleton.2 rfl
  refine (convertType_builds hrec hpath h hbound (fun hobject => ?_) attributes).imp ?_
  · subst hobject
    exact ⟨hfree _ rfl, _, rfl, rfl⟩
  · rintro t s' ⟨hs', ht, -⟩
    refine ⟨hs', [t], ?_, rfl⟩
    rw [htypePaths]
    exact List.Forall₂.cons ht List.Forall₂.nil

/-- The union of the nodes of several types that a schema names. -/
theorem convertSeveralTypes_builds (hrec : SoundConverter c recur) {first second : String}
    {rest : List String} (hnames : place.fragment.declaredTypes = first :: second :: rest)
    (h : c.Stage pending place s) (hbound : ∃ t, s.nodeOf? place.path = some t)
    (hfree : ∀ e : PathElement, e.isAddressable = false → s.nodeOf? (place.path.push e) = none)
    (attributes : Attributes) :
    Builds c pending [place.path] place.path (do
        let union ← declare .union
        let members ← convertBranches recur place attributes 0 (first :: second :: rest)
        setMembers union members
        return SortedSet.singleton union) s
      (fun members s' => ∃ types?, s'.TypesNode place types? ∧ members.Lists types?.toList) := by
  have htypePaths : place.typePaths = place.branchPaths 0 (first :: second :: rest) := by
    rw [Place.typePaths_eq_of_not_singleton (by simp [hnames]), hnames]
  have hnodup := place.fragment.nodup_declaredTypes
  rw [hnames] at hnodup
  refine Meets.andThen (h.sound.declare [place.path] .union
    fun union s₁ hs₁ hnew hunion hbound₁ => ?_)
  refine (convertBranches_builds hrec attributes hnodup (by rw [htypePaths]; exact fun _ he => he)
    (h.advance hs₁) (hbound.imp fun t ht => hs₁.retains.bound _ _ ht)
    (fun _ k _ => (hbound₁ _).trans (hfree _ rfl))).seq
      fun members s₂ ⟨hs₂, nodes, hnodes, hmembers⟩ => ?_
  have hunset := hs₂.grows.keeps _ _ hunion
  refine Meets.andThen ((hs₁.trans hs₂).fill hnew hunset members fun s₃ hs₃ hs₂₃ hshape _ => ?_)
  refine Meets.pure ⟨hs₃, some union, ?_, SortedSet.lists_singleton union⟩
  have hnodes₃ := hnodes.imp fun e n hn => TypeNode.mono hs₂₃ hn
  rw [← htypePaths] at hnodes₃
  match nodes, hnodes with
  | _, .cons _ (.cons _ _) => exact ⟨_, hnodes₃, union, rfl, members, hshape, hmembers⟩

/-- What the type of a schema contributes. -/
theorem convertTypes_builds (hrec : SoundConverter c recur) (h : c.Stage pending place s)
    (hbound : ∃ t, s.nodeOf? place.path = some t)
    (hfree : ∀ e : PathElement, e.isAddressable = false → s.nodeOf? (place.path.push e) = none)
    (attributes : Attributes) :
    Builds c pending [place.path] place.path (convertTypes recur place attributes) s
      (fun members s' => place.fragment.TypesListed ∧
        ∃ types?, s'.TypesNode place types? ∧ members.Lists types?.toList) := by
  unfold convertTypes
  cases hnames : namedTypes place.fragment place.path with
  | error e =>
    obtain ⟨⟨fault, rfl⟩, hlisted⟩ := namedTypes_eq_error hnames
    exact Meets.andThen (Meets.throw (h.blames (fun hshape => hlisted hshape.types_listed) rfl))
  | ok names =>
    obtain ⟨hlisted, hdeclared⟩ := namedTypes_eq_ok hnames
    refine Meets.andThen (Meets.pure ?_)
    match names with
    | [] =>
      refine Meets.pure ⟨h.sound.advances [place.path], hlisted, none, ⟨[], ?_, rfl⟩,
        SortedSet.lists_empty⟩
      rw [Place.typePaths_eq_of_not_singleton (by simp [← hdeclared]), ← hdeclared]
      exact List.Forall₂.nil
    | [name] =>
      refine (convertOnlyType_builds hrec hdeclared.symm h hbound hfree attributes).seq
        fun t s₁ ⟨hs₁, htypes⟩ => ?_
      exact Meets.pure ⟨hs₁, hlisted, some t, htypes, SortedSet.lists_singleton t⟩
    | first :: second :: rest =>
      exact (convertSeveralTypes_builds hrec hdeclared.symm h hbound hfree attributes).imp
        fun members s' ⟨hs', htypes⟩ => ⟨hs', hlisted, htypes⟩

end Conversion

end ShapeGraph
