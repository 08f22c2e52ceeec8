import ShapeGraph.Conversion.Convert
import ShapeGraph.Proofs.Growth
import ShapeGraph.Proofs.Inner
import ShapeGraph.Proofs.Outcomes

/-!
# What the parts of a schema leave alone

The conversion of a schema changes the progress only by operations on the graph and by new bindings,
apart from what the conversions of the schemas inside it do.  What none of these breaks is therefore
kept by the conversion of each part, also when it fails, and no part fails because schemas are nested
too deep.

## Main definitions

* `Conversion.Preserves` — a conversion keeps what holds of the progress and fails only as allowed.
* `Conversion.Custody` — operations on the graph and new bindings keep what holds of the progress, as
  long as members are only set for certain nodes.
* `Conversion.Frame` — operations on the graph and new bindings keep what holds of the progress.
* `Conversion.schemaMembers`, `Conversion.objectMembers` — the members of the node of a schema and of
  an object type.

## Main results

* `Conversion.Preserves.andThen`, … — one rule for each way in which conversions are put together.
* `Conversion.convertTypes_preserves`, `Conversion.convertChoice_preserves`, … — the parts of a schema.
* `Conversion.schemaMembers_preserves` — all parts of a schema together.

## Design

Members are set by the conversion that has made the node, after whatever the conversions of inner
schemas do in between.  So that these may be kept from setting the members of other nodes, the nodes
whose members may be set are a parameter; every node is one of them from when it is made.
-/

set_option autoImplicit false

namespace ShapeGraph

namespace Conversion

variable {σ α β : Type} {inv : Progress σ → Prop} {mine : NodeId → Prop}
  {allowed : Failure → Prop}

/-- What holds of the progress before the conversion holds of it afterwards, also if it fails; and it
fails only as allowed. -/
def Preserves (inv : Progress σ → Prop) (allowed : Failure → Prop) (x : Conversion σ α) : Prop :=
  ∀ s, inv s → Meets x s (fun _ s' => inv s') fun e s' => inv s' ∧ allowed e

/-- What a conversion keeps is known of its results besides what else is. -/
theorem Meets.and_preserves {x : Conversion σ α} {s : Progress σ} {post : α → Progress σ → Prop}
    {fault : Failure → Progress σ → Prop} (h : Meets x s post fault) (hx : Preserves inv allowed x)
    (hs : inv s) : Meets x s (fun a s' => post a s' ∧ inv s') fault :=
  (h.and (hx s hs)).mono (fun _ _ hpost => hpost) fun _ _ hfault => hfault.1

/-- Operations on the graph and new bindings keep what holds of the progress, as long as members are
only set for nodes in custody, which every union or intersection is from when it is made.  All
failures are allowed but those that tell that schemas are nested too deep. -/
structure Custody (inv : Progress σ → Prop) (mine : NodeId → Prop) (allowed : Failure → Prop) :
    Prop where
  interned : ∀ s shape, shape.isCombination = false → inv s →
    inv { s with graph := (s.graph.intern shape).2 }
  declared : ∀ s operation, inv s →
    mine s.graph.nodes.length ∧ inv { s with graph := (s.graph.declare operation).2 }
  filled : ∀ s t members, mine t → inv s →
    inv { s with graph := s.graph.replaceMembers t members }
  attributed : ∀ s t attributes, inv s →
    inv { s with graph := s.graph.addAttributes t attributes }
  bindPath : ∀ s path t, inv s → s.nodeOf? path = none → inv { s with bound := (path, t) :: s.bound }
  allows : ∀ e : Failure, e.isDepthFault = false → allowed e

/-- Operations on the graph and new bindings keep what holds of the progress.  All failures are allowed
but those that tell that schemas are nested too deep. -/
structure Frame (inv : Progress σ → Prop) (allowed : Failure → Prop) : Prop where
  setGraph : ∀ s g, inv s → inv { s with graph := g }
  bindPath : ∀ s path t, inv s → s.nodeOf? path = none → inv { s with bound := (path, t) :: s.bound }
  allows : ∀ e : Failure, e.isDepthFault = false → allowed e

/-- Where all operations on the graph are harmless, all nodes are in custody. -/
theorem Frame.custody (frame : Frame inv allowed) : Custody inv (fun _ => True) allowed where
  interned s _ _ hs := frame.setGraph s _ hs
  declared s _ hs := ⟨trivial, frame.setGraph s _ hs⟩
  filled s _ _ _ hs := frame.setGraph s _ hs
  attributed s _ _ hs := frame.setGraph s _ hs
  bindPath := frame.bindPath
  allows := frame.allows

/-! ## Putting conversions together -/

namespace Preserves

variable {x : Conversion σ α} {f : α → Conversion σ β}

theorem andThen (hx : Preserves inv allowed x) (hf : ∀ a, Preserves inv allowed (f a)) :
    Preserves inv allowed (x >>= f) :=
  fun s hs => (hx s hs).seq fun a s' hs' => hf a s' hs'

theorem forM {l : List β} {f : β → Conversion σ Unit} (h : ∀ b ∈ l, Preserves inv allowed (f b)) :
    Preserves inv allowed (l.forM f) :=
  fun _ hs => Meets.forM h hs

theorem pure (a : α) : Preserves inv allowed (Pure.pure a : Conversion σ α) := fun _ hs => hs

theorem throw {e : Failure} (he : allowed e) :
    Preserves inv allowed (MonadExcept.throw e : Conversion σ α) :=
  fun _ hs => ⟨hs, he⟩

theorem ofResult {result : Except Failure α} (h : ∀ e, result = .error e → allowed e) :
    Preserves inv allowed (Conversion.ofResult result : Conversion σ α) :=
  fun _ hs => Meets.ofResult (fun _ _ => hs) fun e he => ⟨hs, h e he⟩

/-- The node that a path stands for, or else what another conversion gives. -/
theorem boundOr {path : Reference} {x : Conversion σ NodeId} (hx : Preserves inv allowed x) :
    Preserves inv allowed (do
      match ← bound? path with
      | some t => return t
      | none => x) :=
  fun s hs => Meets.boundOr (fun _ _ => hs) fun _ => hx s hs

end Preserves

namespace Custody

variable (custody : Custody inv mine allowed)

include custody

theorem intern {shape : Shape} (hshape : shape.isCombination = false) :
    Preserves inv allowed (Conversion.onGraph (·.intern shape)) :=
  fun s hs => Meets.onGraph (custody.interned s shape hshape hs)

/-- What comes after a new union or intersection may set its members. -/
theorem declare {operation : Operation} {f : NodeId → Conversion σ α}
    (hf : ∀ t, mine t → Preserves inv allowed (f t)) :
    Preserves inv allowed (Conversion.declare operation >>= f) := by
  intro s hs
  obtain ⟨hmine, hinv⟩ := custody.declared s operation hs
  exact Meets.andThen (Meets.onGraph (hf _ hmine _ hinv))

theorem addAttributes (t : NodeId) (attributes : Attributes) :
    Preserves inv allowed (Conversion.addAttributes t attributes) :=
  fun s hs => Meets.addAttributes (custody.attributed s t attributes hs)

theorem setMembers {t : NodeId} (ht : mine t) (members : SortedSet NodeId) :
    Preserves inv allowed (Conversion.setMembers t members) := by
  intro s hs
  have hinv : inv { s with graph := (s.graph.setMembers t members).2 } := by
    rw [TypeGraph.setMembers_snd]
    exact custody.filled s t members ht hs
  refine Meets.andThen (Meets.onGraph (Meets.ofResult (fun _ _ => hinv) fun e he => ⟨hinv, ?_⟩))
  refine custody.allows e ?_
  unfold TypeGraph.setMembers at he
  split at he <;> cases he
  rfl

theorem bind (path : Reference) (t : NodeId) : Preserves inv allowed (Conversion.bind path t) := by
  intro s hs
  refine Meets.andThen (Meets.bound? ?_)
  cases hpath : s.nodeOf? path with
  | none => exact custody.bindPath s path t hs hpath
  | some other =>
    dsimp only
    split
    · exact hs
    · exact ⟨hs, custody.allows _ rfl⟩

end Custody

/-! ## Members -/

/-- The members of the node of a schema that is neither reference nor enum. -/
def schemaMembers (recur : Converter σ) (place : Place) (attributes : Attributes) :
    Conversion σ (SortedSet NodeId) := do
  let all ← convertAllOf recur place attributes.names
  let one ← convertChoice recur place .oneOf attributes.names
  let any ← convertChoice recur place .anyOf attributes.names
  let types ← convertTypes recur place attributes
  orAny (((all.union one).union any).union types)

/-- A schema that is neither reference nor enum gets its members once its path is bound. -/
theorem convertSchema_eq (recur : Converter σ) (place : Place) (attributes : Attributes) :
    convertSchema recur place attributes = (do
      let t ← declare .intersection
      bind place.path t
      let members ← schemaMembers recur place attributes
      setMembers t members
      addAttributes t attributes
      return t) := by
  simp only [convertSchema, schemaMembers, bind_assoc]

/-- The members of the node of an object type. -/
def objectMembers (recur : Converter σ) (place : Place) (attributes : Attributes) :
    Conversion σ (SortedSet NodeId) := do
  let records ← convertProperties recur place attributes
  let maps ← convertAdditional recur place attributes.names
  orAnyMap (records.union maps)

/-- An object type gets its members once its path is bound. -/
theorem convertObject_eq (recur : Converter σ) (place : Place) (attributes : Attributes) :
    convertObject recur place attributes = (do
      let t ← declare .union
      bind place.path t
      let members ← objectMembers recur place attributes
      setMembers t members
      addAttributes t attributes
      return t) := by
  simp only [convertObject, objectMembers, bind_assoc]

/-! ## Parts of a schema -/

section Parts

variable (custody : Custody inv mine allowed)

include custody

theorem orAny_preserves (members : SortedSet NodeId) : Preserves inv allowed (orAny members) := by
  unfold orAny
  split
  · exact (custody.intern rfl).andThen fun any => .pure _
  · exact .pure _

theorem orAnyMap_preserves (members : SortedSet NodeId) :
    Preserves inv allowed (orAnyMap members) := by
  unfold orAnyMap
  split
  · exact (custody.intern rfl).andThen fun any => (custody.intern rfl).andThen fun map => .pure _
  · exact .pure _

theorem convertEnum_preserves (cases : Json) (path : Reference) (attributes : Attributes) :
    Preserves inv allowed (convertEnum cases path attributes) := by
  unfold convertEnum
  cases cases with
  | arr items =>
    dsimp only
    cases enumCases items with
    | error case => exact .throw (custody.allows _ rfl)
    | ok result =>
      refine (custody.intern rfl).andThen fun null => ?_
      split
      · exact .pure _
      · refine (custody.intern rfl).andThen fun enum => ?_
        refine (custody.addAttributes enum attributes).andThen fun _ => ?_
        split
        · refine custody.declare fun union hunion => ?_
          exact (custody.setMembers hunion _).andThen fun _ =>
            (custody.addAttributes union attributes).andThen fun _ => .pure _
        · exact .pure _
  | null | bool _ | num _ | str _ | obj _ => exact .throw (custody.allows _ rfl)

variable {recur : Converter σ} {place : Place}
  (hrec : ∀ child, place.Inner child → ∀ hints, Preserves inv allowed (recur child hints))

omit custody in
theorem convertSiblings_preserves {parent : Place} {step : Nat → PathElement} (hints : Names)
    {i : Nat} {schemas : List Json} (h : ∀ k schema, schemas[k]? = some schema →
      Preserves inv allowed
        (recur ⟨parent.document, schema, parent.path.push (step (i + k))⟩ hints)) :
    Preserves inv allowed (convertSiblings recur parent step hints i schemas) := by
  induction schemas generalizing i with
  | nil => exact .pure _
  | cons schema rest ih =>
    refine (h 0 schema rfl).andThen fun t => ?_
    refine (ih fun k schema hschema => ?_).andThen fun others => .pure _
    have hnext := h (k + 1) schema hschema
    rwa [show i + (k + 1) = i + 1 + k by omega] at hnext

include hrec

theorem convertCases_preserves {combinator : Combinator} {cases : Json}
    (hcases : place.fragment.get? combinator.keyword = some cases) (hints : Names) :
    Preserves inv allowed (convertCases recur place combinator cases hints) := by
  unfold convertCases
  cases cases with
  | arr schemas =>
    refine convertSiblings_preserves hints fun k schema hschema => ?_
    rw [Nat.zero_add]
    exact hrec _ (.branch hcases hschema) hints
  | null | bool _ | num _ | str _ | obj _ => exact .throw (custody.allows _ rfl)

theorem convertAllOf_preserves (hints : Names) :
    Preserves inv allowed (convertAllOf recur place hints) := by
  unfold convertAllOf
  cases hcases : place.fragment.get? Combinator.allOf.keyword with
  | none => exact .pure _
  | some cases => exact convertCases_preserves custody hrec hcases hints

theorem convertChoice_preserves (combinator : Combinator) (hints : Names) :
    Preserves inv allowed (convertChoice recur place combinator hints) := by
  unfold convertChoice
  cases hcases : place.fragment.get? combinator.keyword with
  | none => exact .pure _
  | some cases =>
    refine custody.declare fun union hunion => ?_
    refine (convertCases_preserves custody hrec hcases hints).andThen fun members => ?_
    exact (custody.setMembers hunion members).andThen fun _ => .pure _

theorem convertArray_preserves {path : Reference} (harray : ("array", path) ∈ place.typePaths)
    (hints : Names) :
    Preserves inv allowed (convertArray recur ⟨place.document, place.fragment, path⟩ hints) := by
  unfold convertArray convertItems
  refine Preserves.andThen ?_ fun items => custody.intern rfl
  dsimp only
  cases hitems : place.fragment.get? "items" with
  | none => exact custody.intern rfl
  | some items =>
    cases items with
    | bool b => exact hrec _ (.items harray hitems (Or.inl ⟨b, rfl⟩)) hints.singular
    | obj members => exact hrec _ (.items harray hitems (Or.inr ⟨members, rfl⟩)) hints.singular
    | arr positions =>
      refine custody.declare fun union hunion => Preserves.andThen ?_ fun members => ?_
      · refine convertSiblings_preserves _ fun k schema hschema => ?_
        rw [Nat.zero_add]
        exact hrec _ (.position harray hitems hschema) _
      · exact (orAny_preserves custody members).andThen fun members =>
          (custody.setMembers hunion members).andThen fun _ => .pure _
    | null | num _ | str _ => exact .throw (custody.allows _ rfl)

omit custody in
theorem convertMembers_preserves {path : Reference} (hobject : ("object", path) ∈ place.typePaths)
    {members rest : List (String × Json)}
    (hmembers : place.fragment.get? "properties" = some (.obj members))
    (hrest : ∀ member ∈ rest, member ∈ members) (required : List String) :
    Preserves inv allowed
      (convertMembers recur ⟨place.document, place.fragment, path⟩ required rest) := by
  induction rest with
  | nil => exact .pure _
  | cons member rest ih =>
    obtain ⟨name, schema⟩ := member
    obtain ⟨hfirst, hrest⟩ := List.forall_mem_cons.1 hrest
    refine (hrec _ (.property hobject hmembers hfirst) _).andThen fun t => ?_
    exact (ih hrest).andThen fun others => .pure _

theorem convertProperties_preserves {path : Reference}
    (hobject : ("object", path) ∈ place.typePaths) (attributes : Attributes) :
    Preserves inv allowed
      (convertProperties recur ⟨place.document, place.fragment, path⟩ attributes) := by
  unfold convertProperties
  cases hfield : place.fragment.get? "properties" with
  | none => exact .pure _
  | some value =>
    cases value with
    | obj members =>
      refine Preserves.andThen (.ofResult fun e he => ?_) fun required => ?_
      · obtain ⟨⟨fault, rfl⟩, -⟩ := requiredNames_eq_error he
        exact custody.allows _ rfl
      · refine (convertMembers_preserves hrec hobject hfield (fun _ h => h) required).andThen
          fun properties => (custody.intern rfl).andThen fun record => ?_
        exact (custody.addAttributes record attributes).andThen fun _ => .pure _
    | null | bool _ | num _ | str _ | arr _ => exact .throw (custody.allows _ rfl)

theorem convertAdditional_preserves {path : Reference}
    (hobject : ("object", path) ∈ place.typePaths) (hints : Names) :
    Preserves inv allowed
      (convertAdditional recur ⟨place.document, place.fragment, path⟩ hints) := by
  unfold convertAdditional
  dsimp only
  cases hfield : place.fragment.get? "additionalProperties" with
  | none => exact .pure _
  | some value =>
    cases value with
    | bool b =>
      cases b with
      | false =>
        dsimp only
        split
        · exact .pure _
        · exact (custody.intern rfl).andThen fun record => .pure _
      | true =>
        refine (custody.intern rfl).andThen fun any => ?_
        exact (custody.intern rfl).andThen fun map => .pure _
    | obj members =>
      refine (hrec _ (.additional hobject hfield) _).andThen fun values => ?_
      exact (custody.intern rfl).andThen fun map => .pure _
    | null | num _ | str _ | arr _ => exact .throw (custody.allows _ rfl)

theorem objectMembers_preserves {path : Reference} (hobject : ("object", path) ∈ place.typePaths)
    (attributes : Attributes) :
    Preserves inv allowed
      (objectMembers recur ⟨place.document, place.fragment, path⟩ attributes) := by
  unfold objectMembers
  refine (convertProperties_preserves custody hrec hobject attributes).andThen fun records => ?_
  refine (convertAdditional_preserves custody hrec hobject attributes.names).andThen fun maps => ?_
  exact orAnyMap_preserves custody _

theorem convertObject_preserves {path : Reference} (hobject : ("object", path) ∈ place.typePaths)
    (attributes : Attributes) :
    Preserves inv allowed
      (convertObject recur ⟨place.document, place.fragment, path⟩ attributes) := by
  rw [convertObject_eq]
  refine custody.declare fun union hunion => (custody.bind path union).andThen fun _ => ?_
  refine (objectMembers_preserves custody hrec hobject attributes).andThen fun members => ?_
  exact (custody.setMembers hunion members).andThen fun _ =>
    (custody.addAttributes union attributes).andThen fun _ => .pure _

theorem convertType_preserves {name : String} {path : Reference}
    (hpath : (name, path) ∈ place.typePaths) (attributes : Attributes) :
    Preserves inv allowed
      (convertType recur ⟨place.document, place.fragment, path⟩ name attributes) := by
  unfold convertType
  cases htype : TypeName.ofText? name with
  | none => exact .throw (custody.allows _ rfl)
  | some type =>
    cases type with
    | object =>
      obtain rfl := TypeName.ofText?_eq_object htype
      exact convertObject_preserves custody hrec hpath attributes
    | array =>
      obtain rfl := TypeName.ofText?_eq_array htype
      exact convertArray_preserves custody hrec hpath attributes.names
    | boolean | null | integer | number | string => exact custody.intern rfl

theorem convertBranches_preserves (attributes : Attributes) {i : Nat} {names : List String}
    (hpaths : ∀ e ∈ place.branchPaths i names, e ∈ place.typePaths) :
    Preserves inv allowed (convertBranches recur place attributes i names) := by
  induction names generalizing i with
  | nil => exact .pure _
  | cons name rest ih =>
    obtain ⟨hfirst, hrest⟩ := List.forall_mem_cons.1 hpaths
    exact (convertType_preserves custody hrec hfirst attributes).andThen fun t =>
      (ih hrest).andThen fun others => .pure _

theorem convertTypes_preserves (attributes : Attributes) :
    Preserves inv allowed (convertTypes recur place attributes) := by
  unfold convertTypes
  cases hnames : namedTypes place.fragment place.path with
  | error e =>
    obtain ⟨⟨fault, rfl⟩, -⟩ := namedTypes_eq_error hnames
    exact fun s hs => Meets.andThen (Meets.throw ⟨hs, custody.allows _ rfl⟩)
  | ok names =>
    obtain ⟨-, hdeclared⟩ := namedTypes_eq_ok hnames
    intro s hs
    refine Meets.andThen (Meets.pure ?_)
    match names with
    | [] => exact hs
    | [name] =>
      have hpath : (name, place.onlyTypePath name) ∈ place.typePaths := by
        rw [Place.typePaths_eq_of_singleton hdeclared.symm]
        exact List.mem_singleton.2 rfl
      exact ((convertType_preserves custody hrec hpath attributes).andThen fun t => .pure _) s hs
    | first :: second :: rest =>
      have hpaths : ∀ e ∈ place.branchPaths 0 (first :: second :: rest), e ∈ place.typePaths := by
        rw [Place.typePaths_eq_of_not_singleton (by simp [← hdeclared]), ← hdeclared]
        exact fun _ he => he
      refine (custody.declare fun union hunion => ?_ : Preserves inv allowed _) s hs
      exact (convertBranches_preserves custody hrec attributes hpaths).andThen fun members =>
        (custody.setMembers hunion members).andThen fun _ => .pure _

theorem schemaMembers_preserves (attributes : Attributes) :
    Preserves inv allowed (schemaMembers recur place attributes) := by
  unfold schemaMembers
  refine (convertAllOf_preserves custody hrec _).andThen fun all => ?_
  refine (convertChoice_preserves custody hrec .oneOf _).andThen fun one => ?_
  refine (convertChoice_preserves custody hrec .anyOf _).andThen fun any => ?_
  refine (convertTypes_preserves custody hrec attributes).andThen fun types => ?_
  exact orAny_preserves custody _

theorem convertSchema_preserves (attributes : Attributes) :
    Preserves inv allowed (convertSchema recur place attributes) := by
  rw [convertSchema_eq]
  refine custody.declare fun t ht => (custody.bind place.path t).andThen fun _ => ?_
  refine (schemaMembers_preserves custody hrec attributes).andThen fun members => ?_
  exact (custody.setMembers ht members).andThen fun _ =>
    (custody.addAttributes t attributes).andThen fun _ => .pure _

end Parts

/-! ## Kinds of fragments -/

section Kinds

variable [DocumentSource σ] {place : Place} (inner : Converter σ) (hints : Names)

theorem convertFragment_of_bool {b : Bool} (h : place.fragment = .bool b) :
    convertFragment inner place hints = primitive .any := by
  unfold convertFragment
  rw [h]

theorem convertFragment_of_reference {value : Json}
    (h : place.fragment.get? "$ref" = some value) :
    convertFragment inner place hints = follow inner place value hints := by
  obtain ⟨members, hmembers⟩ := Json.exists_eq_obj_of_get? h
  unfold convertFragment
  split
  · next b hb => rw [hmembers] at hb; cases hb
  · rw [h]
  · next hnone => exact absurd hmembers (hnone members)

theorem convertFragment_of_enum {cases : Json} (href : place.fragment.get? "$ref" = none)
    (h : place.fragment.get? "enum" = some cases) :
    convertFragment inner place hints =
      convertEnum cases place.path (Attributes.ofSchema place.fragment place.path hints) := by
  obtain ⟨members, hmembers⟩ := Json.exists_eq_obj_of_get? h
  unfold convertFragment
  split
  · next b hb => rw [hmembers] at hb; cases hb
  · rw [href]
    dsimp only
    rw [h]
  · next hnone => exact absurd hmembers (hnone members)

theorem convertFragment_of_isSchema (h : place.IsSchema) :
    convertFragment inner place hints =
      convertSchema inner place (Attributes.ofSchema place.fragment place.path hints) := by
  obtain ⟨members, hmembers⟩ := h.isObject
  unfold convertFragment
  split
  · next b hb => rw [hmembers] at hb; cases hb
  · rw [h.no_reference]
    dsimp only
    rw [h.no_enum]
  · next hnone => exact absurd hmembers (hnone members)

theorem convertFragment_of_none (hbool : ∀ b, place.fragment ≠ .bool b)
    (hobj : ∀ members, place.fragment ≠ .obj members) :
    convertFragment inner place hints =
      throw (.expectedShape .schema place.fragment.kind place.path) := by
  unfold convertFragment
  split
  · next b hb => exact absurd hb (hbool b)
  · next members hmembers => exact absurd hmembers (hobj members)
  · rfl

/-- Only references keep the chain of those that are being followed. -/
theorem convertPlace_eq :
    convertPlace inner place hints =
      (if place.fragment.has "$ref" then convertFragment inner place hints
        else withChain [] (convertFragment inner place hints)) >>= fun t => do
          bind place.path t
          return t := by
  unfold convertPlace
  split
  · rfl
  · rfl

end Kinds

end Conversion

end ShapeGraph
