import ShapeGraph.Proofs.Lockstep

/-!
# The parts of a schema in step

What keywords of a schema contribute is put together in the same way whatever names are passed along and
however deep schemas may still be nested.  So two conversions of one schema stay in step as long as the
conversions of the schemas inside it do.

## Main definitions

* `Place.Seats` — a schema inside another stands where its path leads.
* `Place.Hands` — the names that two conversions hand to the schemas inside.
* `Conversion.Remembers` — a converter lets paths stand for nodes and forgets nothing.
* `Conversion.InnerInStep` — the conversions of inner schemas stay in step.

## Main results

* `Conversion.schemaMembers_inStep` — all parts of a schema together.
* `Conversion.convertEnum_inStep` — the node of an `enum`.
* `Conversion.convertSchema_inStep` — a schema, where intersections are loose.

## Design

Where an object lists a name twice, only the first member of that name stands at the path.  By the time
the second one is met the path is bound, so it is never looked at.
-/

set_option autoImplicit false

namespace ShapeGraph

/-! ## Schemas inside a schema -/

/-- Wherever the schema of `place` stands, the path of `child` leads to `child`. -/
def Place.Seats (place child : Place) : Prop :=
  ∀ c : Corpus, c.Located place → c.Located child

/-- The names that two conversions of a schema, to which they have given `names` and `names'`, hand to
the schemas inside it.  Those under a combinator get them as they are. -/
inductive Place.Hands (place : Place) (names names' : Names) : Place → Names → Names → Prop
  /-- Under a combinator. -/
  | branch {combinator : Combinator} {schemas : List Json} {i : Nat} {schema : Json}
      (cases_eq : place.fragment.get? combinator.keyword = some (.arr schemas))
      (schema_eq : schemas[i]? = some schema) :
      Hands place names names'
        ⟨place.document, schema, place.path.push (.branch combinator i)⟩ names names'
  /-- A piece of a container. -/
  | piece {child : Place} (inner : place.Inner child) :
      Hands place names names' child names.singular names'.singular
  /-- A property of a class. -/
  | property {child : Place} (inner : place.Inner child) (name : String) :
      Hands place names names' child (Names.inferred name).singular (Names.inferred name).singular

theorem Place.Hands.inner {place child : Place} {names names' given given' : Names}
    (h : place.Hands names names' child given given') : place.Inner child := by
  cases h with
  | branch hcases hschema => exact .branch hcases hschema
  | piece hinner | property hinner => exact hinner

/-- Where the names given to a schema are the same, so are those handed on. -/
theorem Place.Hands.eq {place child : Place} {names names' given given' : Names}
    (h : place.Hands names names' child given given') (heq : names = names') : given = given' := by
  cases h with
  | branch => exact heq
  | piece => rw [heq]
  | property => rfl

namespace Conversion

variable {σ : Type}

/-- The conversion of a place lets its path stand for the node that it gives, paths go on to stand for
their nodes, and unions stay unions, as intersections stay intersections. -/
structure Remembers (recur : Converter σ) : Prop where
  binds : ∀ place names s,
    Meets (recur place names) s (fun t s' => s'.nodeOf? place.path = some t) fun _ _ => True
  keeps_bound : ∀ (paths : List Reference) place names,
    Preserves (fun s => ∀ path ∈ paths, ∃ t, s.nodeOf? path = some t) (fun _ => True)
      (recur place names)
  keeps_combination : ∀ operation t place names,
    Preserves (fun s => ∃ members, s.graph.shape? t = some (.combination operation members))
      (fun _ => True) (recur place names)

/-- Two conversions stay in step for each schema inside the one at a place, to which they have given
names, if its path is bound already or leads to it. -/
def InnerInStep (k : Coupling σ) (place : Place) (names names' : Names)
    (recur recur' : Converter σ) : Prop :=
  ∀ ⦃child given given'⦄, place.Hands names names' child given given' →
    ∀ ⦃s s'⦄, k.relates s s' → (∃ t, s.nodeOf? child.path = some t) ∨ place.Seats child →
      Lockstep k (recur child given) (recur' child given') s s' fun _ => k.relates

/-! ## What is remembered -/

section Remembers

/-- Paths that stand for nodes go on to do so. -/
theorem bound_steady [DocumentSource σ] (paths : List Reference) :
    Steady (fun s : Progress σ => ∀ path ∈ paths, ∃ t, s.nodeOf? path = some t) fun _ => True where
  toCustody := Frame.custody
    ⟨fun _ _ hs => hs,
      fun _ _ u hs hfree path hpath => (hs path hpath).imp fun _ => Progress.bound_bind hfree u,
      fun _ _ => trivial⟩
  chained _ _ hs := hs
  fetched _ _ hs := hs

/-- A union stays a union, and an intersection an intersection. -/
theorem combination_custody (operation : Operation) (t : NodeId) :
    Custody (fun s : Progress σ => ∃ members,
      s.graph.shape? t = some (.combination operation members)) (fun _ => True) fun _ => True where
  interned s shape _ := by
    rintro ⟨members, ht⟩
    refine ⟨members, ?_⟩
    dsimp only
    unfold TypeGraph.intern
    split
    · exact ht
    · exact TypeGraph.keeps_allocate s.graph shape t _ ht
  declared s _ := by
    rintro ⟨members, ht⟩
    exact ⟨trivial, members, TypeGraph.keeps_allocate s.graph _ t _ ht⟩
  filled s u members _ := by
    rintro ⟨old, ht⟩
    dsimp only
    rw [TypeGraph.shape?_replaceMembers]
    split
    · next heq =>
      subst heq
      exact ⟨some members, by rw [ht]; rfl⟩
    · exact ⟨old, ht⟩
  attributed s u attributes := by
    rintro ⟨members, ht⟩
    exact ⟨members, (TypeGraph.shape?_addAttributes s.graph u t attributes).trans ht⟩
  bindPath _ _ _ hs _ := hs
  allows _ _ := trivial

/-- A binding that is made is there. -/
theorem bind_binds (path : Reference) (t : NodeId) (s : Progress σ) :
    Meets (bind path t) s (fun _ s' => s'.nodeOf? path = some t) fun _ _ => True := by
  refine Meets.andThen (Meets.bound? ?_)
  cases hpath : s.nodeOf? path with
  | none =>
    change Progress.nodeOf? _ path = some t
    rw [Progress.nodeOf?_bind, if_pos rfl]
  | some other =>
    dsimp only
    split
    · next heq => exact Meets.pure (heq ▸ hpath)
    · exact Meets.throw trivial

variable [DocumentSource σ]

theorem toType_binds (limit budget : Nat) (place : Place) (names : Names) (s : Progress σ) :
    Meets (toType limit budget place names) s (fun t s' => s'.nodeOf? place.path = some t)
      fun _ _ => True := by
  cases budget with
  | zero => exact Meets.boundOr (fun _ hpath => hpath) fun _ => Meets.throw trivial
  | succ budget =>
    refine Meets.boundOr (fun _ hpath => hpath) fun _ => ?_
    rw [convertPlace_eq]
    refine Meets.andThen (Meets.of_forall (fun t s₁ => ?_) fun _ _ => trivial)
    exact (bind_binds place.path t s₁).seq fun _ s₂ hs₂ => Meets.pure hs₂

/-- The conversion of places forgets nothing. -/
theorem toType_remembers (limit budget : Nat) :
    Remembers (toType limit budget : Converter σ) where
  binds := toType_binds limit budget
  keeps_bound paths := toType_preserves (bound_steady paths) limit budget
  keeps_combination operation t :=
    toType_preserves ⟨combination_custody operation t, fun _ _ hs => hs, fun _ _ hs => hs⟩ limit budget

end Remembers

/-! ## Parts of a schema -/

section Parts

variable {k : Coupling σ} {a a' : Attributes} {recur recur' : Converter σ} {place : Place}
  (stable : k.Stable a a')

include stable

theorem orAny_inStep (members : SortedSet NodeId) :
    InStep k (orAny members : Conversion σ _) (orAny members) := by
  unfold orAny
  split
  · exact (stable.intern_inStep rfl).andThen fun any => .pure _
  · exact .pure _

theorem orAnyMap_inStep (members : SortedSet NodeId) :
    InStep k (orAnyMap members : Conversion σ _) (orAnyMap members) := by
  unfold orAnyMap
  split
  · exact (stable.intern_inStep rfl).andThen fun any =>
      (stable.intern_inStep rfl).andThen fun map => .pure _
  · exact .pure _

/-- A new union of given nodes gets its attributes. -/
theorem union_inStep (members : SortedSet NodeId) :
    InStep k (do
        let union ← declare .union
        setMembers union members
        addAttributes union a
        return union : Conversion σ NodeId)
      (do
        let union ← declare .union
        setMembers union members
        addAttributes union a'
        return union) := by
  intro s s' hs
  refine (stable.declare .union hs).seq fun union s₁ s₁' ⟨hs₁, hunion⟩ => ?_
  have hkept := (combination_custody .union union).setMembers (t := union) trivial members s₁ ⟨none, hunion⟩
  refine ((stable.setMembers union members hs₁).and_meets hkept).seq
    fun _ s₂ s₂' ⟨hs₂, _, hunion₂⟩ => ?_
  refine (stable.addAttributes (stable.loose_of_union hunion₂) hs₂).seq fun _ s₃ s₃' hs₃ => ?_
  exact Lockstep.pure hs₃

theorem convertEnum_inStep (cases : Json) (path : Reference) :
    InStep k (convertEnum cases path a : Conversion σ _) (convertEnum cases path a') := by
  unfold convertEnum
  cases cases with
  | arr items =>
    dsimp only
    cases enumCases items with
    | error case => exact stable.throw rfl
    | ok result =>
      refine (stable.intern_inStep rfl).andThen fun null => ?_
      split
      · exact .pure _
      · intro s s' hs
        refine (stable.intern rfl hs).seq fun enum s₁ s₁' ⟨hs₁, henum⟩ => ?_
        refine (stable.addAttributes (henum rfl) hs₁).seq fun _ s₂ s₂' hs₂ => ?_
        split
        · exact union_inStep stable _ hs₂
        · exact Lockstep.pure hs₂
  | null | bool _ | num _ | str _ | obj _ => exact stable.throw rfl

omit stable in
theorem convertSiblings_inStep {parent : Place} {step : Nat → PathElement} {names names' : Names}
    {i : Nat} {schemas : List Json} (h : ∀ n schema, schemas[n]? = some schema →
      InStep k (recur ⟨parent.document, schema, parent.path.push (step (i + n))⟩ names)
        (recur' ⟨parent.document, schema, parent.path.push (step (i + n))⟩ names')) :
    InStep k (convertSiblings recur parent step names i schemas)
      (convertSiblings recur' parent step names' i schemas) := by
  induction schemas generalizing i with
  | nil => exact .pure _
  | cons schema rest ih =>
    refine (h 0 schema rfl).andThen fun t => ?_
    refine (ih fun n schema hschema => ?_).andThen fun others => .pure _
    have hnext := h (n + 1) schema hschema
    rwa [show i + (n + 1) = i + 1 + n by omega] at hnext

variable (hrec : InnerInStep k place a.names a'.names recur recur')

include hrec

theorem convertCases_inStep {combinator : Combinator} {cases : Json}
    (hcases : place.fragment.get? combinator.keyword = some cases) :
    InStep k (convertCases recur place combinator cases a.names)
      (convertCases recur' place combinator cases a'.names) := by
  unfold convertCases
  cases cases with
  | arr schemas =>
    refine convertSiblings_inStep fun n schema hschema => ?_
    rw [Nat.zero_add]
    exact fun s s' hs => hrec (.branch hcases hschema) hs (Or.inr fun c h => h.branch hcases hschema)
  | null | bool _ | num _ | str _ | obj _ => exact stable.throw rfl

theorem convertAllOf_inStep :
    InStep k (convertAllOf recur place a.names) (convertAllOf recur' place a'.names) := by
  unfold convertAllOf
  cases hcases : place.fragment.get? Combinator.allOf.keyword with
  | none => exact .pure _
  | some cases => exact convertCases_inStep stable hrec hcases

theorem convertChoice_inStep (combinator : Combinator) :
    InStep k (convertChoice recur place combinator a.names)
      (convertChoice recur' place combinator a'.names) := by
  unfold convertChoice
  cases hcases : place.fragment.get? combinator.keyword with
  | none => exact .pure _
  | some cases =>
    refine (stable.declare_inStep .union).andThen fun union => ?_
    refine (convertCases_inStep stable hrec hcases).andThen fun members => ?_
    exact (stable.setMembers union members).andThen fun _ => .pure _

theorem convertArray_inStep {path : Reference} (harray : ("array", path) ∈ place.typePaths) :
    InStep k (convertArray recur ⟨place.document, place.fragment, path⟩ a.names)
      (convertArray recur' ⟨place.document, place.fragment, path⟩ a'.names) := by
  have hseats : ∀ {schema : Json}, place.fragment.get? "items" = some schema →
      place.Seats ⟨place.document, schema, path.push (.key "items")⟩ := fun hitems c h =>
    (h.typePath harray).push (e := .key "items") (Json.part?_of_get? hitems)
  unfold convertArray convertItems
  refine InStep.andThen ?_ fun items => stable.intern_inStep rfl
  dsimp only
  cases hitems : place.fragment.get? "items" with
  | none => exact stable.intern_inStep rfl
  | some items =>
    cases items with
    | bool b =>
      have hinner := Place.Inner.items harray hitems (Or.inl ⟨b, rfl⟩)
      exact fun s s' hs => hrec (.piece hinner) hs (Or.inr (hseats hitems))
    | obj members =>
      have hinner := Place.Inner.items harray hitems (Or.inr ⟨members, rfl⟩)
      exact fun s s' hs => hrec (.piece hinner) hs (Or.inr (hseats hitems))
    | arr positions =>
      refine (stable.declare_inStep .union).andThen fun union => InStep.andThen ?_ fun members => ?_
      · refine convertSiblings_inStep fun n schema hschema => ?_
        rw [Nat.zero_add]
        have hinner := Place.Inner.position harray hitems hschema
        exact fun s s' hs => hrec (.piece hinner) hs
          (Or.inr fun c h => (h.typePath harray).position hitems hschema)
      · exact (orAny_inStep stable members).andThen fun members =>
          (stable.setMembers union members).andThen fun _ => .pure _
    | null | num _ | str _ => exact stable.throw rfl

/-! ## Objects -/

section Objects

variable {path : Reference} (hobject : ("object", path) ∈ place.typePaths)
  (hremembers : Remembers recur)

include hobject

omit stable in
include hremembers in
/-- The properties of a class.  When a name occurs for the second time, its path is bound already. -/
theorem convertMembers_inStep {members before rest : List (String × Json)}
    (hmembers : place.fragment.get? "properties" = some (.obj members))
    (hsplit : members = before ++ rest) (required : List String) {s s' : Progress σ}
    (hs : k.relates s s')
    (hbefore : ∀ p ∈ before.map fun member => path.pushKeys ["properties", member.1],
      ∃ t, s.nodeOf? p = some t) :
    Lockstep k (convertMembers recur ⟨place.document, place.fragment, path⟩ required rest)
      (convertMembers recur' ⟨place.document, place.fragment, path⟩ required rest) s s'
      fun _ => k.relates := by
  induction rest generalizing before s s' with
  | nil => exact Lockstep.pure hs
  | cons member rest ih =>
    obtain ⟨name, schema⟩ := member
    have hinner : place.Inner ⟨place.document, schema, path.pushKeys ["properties", name]⟩ :=
      .property hobject hmembers (by rw [hsplit]; simp)
    have hchild : (∃ t, s.nodeOf? (path.pushKeys ["properties", name]) = some t) ∨
        place.Seats ⟨place.document, schema, path.pushKeys ["properties", name]⟩ := by
      cases hlookup : before.lookup name with
      | some earlier =>
        obtain ⟨l, r, hl, -⟩ := List.lookup_eq_some_iff.1 hlookup
        exact Or.inl (hbefore _ (List.mem_map.2 ⟨(name, earlier), by rw [hl]; simp, rfl⟩))
      | none =>
        refine Or.inr fun c h => (h.typePath hobject).property hmembers ?_
        rw [hsplit, List.lookup_append, hlookup]
        simp
    refine (((hrec (.property hinner name) hs hchild).and_meets (hremembers.binds _ _ s)).and_meets
      (hremembers.keeps_bound _ _ _ s hbefore)).seq fun t s₁ s₁' ⟨⟨hs₁, ht⟩, hbefore₁⟩ => ?_
    have hsplit₁ : members = (before ++ [(name, schema)]) ++ rest := by
      rw [hsplit, List.append_assoc]
      rfl
    refine (ih hsplit₁ hs₁ fun p hp => ?_).seq fun others s₂ s₂' hs₂ => Lockstep.pure hs₂
    rw [List.map_append, List.mem_append] at hp
    rcases hp with hp | hp
    · exact hbefore₁ p hp
    · obtain rfl := List.mem_singleton.1 hp
      exact ⟨t, ht⟩

include hremembers

theorem convertProperties_inStep :
    InStep k (convertProperties recur ⟨place.document, place.fragment, path⟩ a)
      (convertProperties recur' ⟨place.document, place.fragment, path⟩ a') := by
  unfold convertProperties
  cases hfield : place.fragment.get? "properties" with
  | none => exact .pure _
  | some value =>
    cases value with
    | obj members =>
      refine InStep.andThen (.ofResult fun e he => ?_) fun required s s' hs => ?_
      · obtain ⟨⟨fault, rfl⟩, -⟩ := requiredNames_eq_error he
        exact stable.excuses _ rfl
      · refine (convertMembers_inStep hrec hobject hremembers hfield (List.nil_append members).symm
          required hs fun _ hp => absurd hp List.not_mem_nil).seq fun properties s₁ s₁' hs₁ => ?_
        refine (stable.intern rfl hs₁).seq fun record s₂ s₂' ⟨hs₂, hrecord⟩ => ?_
        exact (stable.addAttributes (hrecord rfl) hs₂).seq fun _ s₃ s₃' hs₃ => Lockstep.pure hs₃
    | null | bool _ | num _ | str _ | arr _ => exact stable.throw rfl

omit hremembers in
theorem convertAdditional_inStep :
    InStep k (convertAdditional recur ⟨place.document, place.fragment, path⟩ a.names)
      (convertAdditional recur' ⟨place.document, place.fragment, path⟩ a'.names) := by
  unfold convertAdditional
  dsimp only
  cases hfield : place.fragment.get? "additionalProperties" with
  | none => exact .pure _
  | some value =>
    cases value with
    | bool b =>
      cases b with
      | false =>
        dsimp only
        split
        · exact .pure _
        · exact (stable.intern_inStep rfl).andThen fun record => .pure _
      | true =>
        refine (stable.intern_inStep rfl).andThen fun any => ?_
        exact (stable.intern_inStep rfl).andThen fun map => .pure _
    | obj members =>
      refine InStep.andThen (fun s s' hs => ?_) fun values =>
        (stable.intern_inStep rfl).andThen fun map => .pure _
      refine hrec (.piece (.additional hobject hfield)) hs (Or.inr fun c h => ?_)
      exact (h.typePath hobject).push (e := .key "additionalProperties") (Json.part?_of_get? hfield)
    | null | num _ | str _ | arr _ => exact stable.throw rfl

theorem objectMembers_inStep :
    InStep k (objectMembers recur ⟨place.document, place.fragment, path⟩ a)
      (objectMembers recur' ⟨place.document, place.fragment, path⟩ a') := by
  unfold objectMembers
  refine (convertProperties_inStep stable hrec hobject hremembers).andThen fun records => ?_
  refine (convertAdditional_inStep stable hrec hobject).andThen fun maps => ?_
  exact orAnyMap_inStep stable _

/-- The node of an object type, which stays a union while its members are converted. -/
theorem convertObject_inStep :
    InStep k (convertObject recur ⟨place.document, place.fragment, path⟩ a)
      (convertObject recur' ⟨place.document, place.fragment, path⟩ a') := by
  rw [convertObject_eq, convertObject_eq]
  intro s s' hs
  refine (stable.declare .union hs).seq fun union s₁ s₁' ⟨hs₁, hunion⟩ => ?_
  have hcustody := combination_custody (σ := σ) .union union
  have hpath := Place.not_isAddressable_of_object hobject
  refine ((stable.bind hpath union hs₁).and_meets (hcustody.bind path union s₁ ⟨none, hunion⟩)).seq
    fun _ s₂ s₂' ⟨hs₂, hunion₂⟩ => ?_
  have hmembers := objectMembers_preserves hcustody
    (fun child _ names => hremembers.keeps_combination .union union child names) hobject a s₂ hunion₂
  refine ((objectMembers_inStep stable hrec hobject hremembers hs₂).and_meets hmembers).seq
    fun members s₃ s₃' ⟨hs₃, hunion₃⟩ => ?_
  have hfilled := hcustody.setMembers (t := union) trivial members s₃ hunion₃
  refine ((stable.setMembers union members hs₃).and_meets hfilled).seq
    fun _ s₄ s₄' ⟨hs₄, _, hunion₄⟩ => ?_
  refine (stable.addAttributes (stable.loose_of_union hunion₄) hs₄).seq fun _ s₅ s₅' hs₅ => ?_
  exact Lockstep.pure hs₅

end Objects

/-! ## Types -/

variable (hremembers : Remembers recur)

include hremembers

theorem convertType_inStep {name : String} {path : Reference}
    (hpath : (name, path) ∈ place.typePaths) :
    InStep k (convertType recur ⟨place.document, place.fragment, path⟩ name a)
      (convertType recur' ⟨place.document, place.fragment, path⟩ name a') := by
  unfold convertType
  cases htype : TypeName.ofText? name with
  | none => exact stable.throw rfl
  | some type =>
    cases type with
    | object =>
      obtain rfl := TypeName.ofText?_eq_object htype
      exact convertObject_inStep stable hrec hpath hremembers
    | array =>
      obtain rfl := TypeName.ofText?_eq_array htype
      exact convertArray_inStep stable hrec hpath
    | boolean | null | integer | number | string => exact stable.intern_inStep rfl

theorem convertBranches_inStep {i : Nat} {names : List String}
    (hpaths : ∀ e ∈ place.branchPaths i names, e ∈ place.typePaths) :
    InStep k (convertBranches recur place a i names) (convertBranches recur' place a' i names) := by
  induction names generalizing i with
  | nil => exact .pure _
  | cons name rest ih =>
    obtain ⟨hfirst, hrest⟩ := List.forall_mem_cons.1 hpaths
    exact (convertType_inStep stable hrec hremembers hfirst).andThen fun t =>
      (ih hrest).andThen fun others => .pure _

theorem convertTypes_inStep :
    InStep k (convertTypes recur place a) (convertTypes recur' place a') := by
  unfold convertTypes
  cases hnames : namedTypes place.fragment place.path with
  | error e =>
    obtain ⟨⟨fault, rfl⟩, -⟩ := namedTypes_eq_error hnames
    exact fun s s' hs => Lockstep.andThen (Lockstep.throw (stable.excuses _ rfl s s' hs))
  | ok names =>
    obtain ⟨-, hdeclared⟩ := namedTypes_eq_ok hnames
    intro s s' hs
    refine Lockstep.andThen (Lockstep.pure ?_)
    match names with
    | [] => exact Lockstep.pure hs
    | [name] =>
      have hpath : (name, place.onlyTypePath name) ∈ place.typePaths := by
        rw [Place.typePaths_eq_of_singleton hdeclared.symm]
        exact List.mem_singleton.2 rfl
      exact ((convertType_inStep stable hrec hremembers hpath).andThen fun t => .pure _) hs
    | first :: second :: rest =>
      have hpaths : ∀ e ∈ place.branchPaths 0 (first :: second :: rest), e ∈ place.typePaths := by
        rw [Place.typePaths_eq_of_not_singleton (by simp [← hdeclared]), ← hdeclared]
        exact fun _ he => he
      refine ((stable.declare_inStep .union).andThen fun union => ?_ : InStep k _ _) hs
      exact (convertBranches_inStep stable hrec hremembers hpaths).andThen fun members =>
        (stable.setMembers union members).andThen fun _ => .pure _

theorem schemaMembers_inStep :
    InStep k (schemaMembers recur place a) (schemaMembers recur' place a') := by
  unfold schemaMembers
  refine (convertAllOf_inStep stable hrec).andThen fun all => ?_
  refine (convertChoice_inStep stable hrec .oneOf).andThen fun one => ?_
  refine (convertChoice_inStep stable hrec .anyOf).andThen fun any => ?_
  refine (convertTypes_inStep stable hrec hremembers).andThen fun types => ?_
  exact orAny_inStep stable _

/-- A schema, whose node stays an intersection while its members are converted. -/
theorem convertSchema_inStep
    (hloose : ∀ {s t members}, s.graph.shape? t = some (.combination .intersection members) →
      k.loose s t)
    (hbind : ∀ t, InStep k (bind place.path t) (bind place.path t)) :
    InStep k (convertSchema recur place a) (convertSchema recur' place a') := by
  rw [convertSchema_eq, convertSchema_eq]
  intro s s' hs
  refine (stable.declare .intersection hs).seq fun t s₁ s₁' ⟨hs₁, ht⟩ => ?_
  have hcustody := combination_custody (σ := σ) .intersection t
  refine ((hbind t hs₁).and_meets (hcustody.bind place.path t s₁ ⟨none, ht⟩)).seq
    fun _ s₂ s₂' ⟨hs₂, ht₂⟩ => ?_
  have hmembers := schemaMembers_preserves hcustody
    (fun child (_ : place.Inner child) names =>
      hremembers.keeps_combination .intersection t child names) a s₂ ht₂
  refine ((schemaMembers_inStep stable hrec hremembers hs₂).and_meets hmembers).seq
    fun members s₃ s₃' ⟨hs₃, ht₃⟩ => ?_
  have hfilled := hcustody.setMembers (t := t) trivial members s₃ ht₃
  refine ((stable.setMembers t members hs₃).and_meets hfilled).seq
    fun _ s₄ s₄' ⟨hs₄, _, ht₄⟩ => ?_
  refine (stable.addAttributes (hloose ht₄) hs₄).seq fun _ s₅ s₅' hs₅ => ?_
  exact Lockstep.pure hs₅

end Parts

end Conversion

end ShapeGraph
