import ShapeGraph.Proofs.PartsInStep
import ShapeGraph.Proofs.Sessions

/-!
# Names that are handed down

A schema with a title or at the end of a path to a definition has a name of its own.  It passes the name
on to the schemas under its combinators and, if one of these is a reference, to its target, as long as
these have been given none.  So a node that is made for a schema goes by the name of that schema or by
one that another schema has handed down to it.

## Main definitions

* `Place.ownName?` — the name that a schema has of its own.
* `Corpus.Passes` — one schema passes names on to another.
* `Corpus.Lends` — a schema that is met hands its own name down to another.
* `Progress.Named` — the nodes of schemas go by names that have been handed down to them.

## Main results

* `Conversion.convertSchema_named` — the node of a schema, once it has been converted.
* `Conversion.toType_named` — the conversion of a place at any budget.

## Design

While a schema is converted, its node has no names yet.  That this stays so, and that nodes keep their
names once they have them, is stated for given paths, nodes and names, which are a parameter.
-/

set_option autoImplicit false

namespace ShapeGraph

/-! ## Names of schemas -/

/-- The name that a schema has of its own: its title, or else the name of the definition that its path
ends in. -/
def Place.ownName? (place : Place) : Option String :=
  (Attributes.textField? place.fragment "title").or place.path.definitionName?

/-- As long as the names passed to a schema are only inferred, its own name takes their place. -/
theorem Attributes.namesOf_eq (place : Place) (hints : Names) :
    Attributes.namesOf place.fragment place.path hints =
      if hints.isInferred then (place.ownName?.map Names.given).getD hints else hints := by
  unfold namesOf Place.ownName?
  cases textField? place.fragment "title" with
  | some title => rfl
  | none =>
    cases place.path.definitionName? with
    | some name => rfl
    | none => rfl

namespace Corpus

variable {c : Corpus} {starts : List Reference} {place next : Place} {name : String}

/-- The names given to the first schema are passed on to the second one, which stands under a combinator
of it or to which it is a reference. -/
inductive Passes (c : Corpus) (place : Place) : Place → Prop
  /-- To a schema under a combinator. -/
  | branch {combinator : Combinator} {schemas : List Json} {i : Nat} {schema : Json}
      (is_schema : place.IsSchema)
      (cases_eq : place.fragment.get? combinator.keyword = some (.arr schemas))
      (schema_eq : schemas[i]? = some schema) :
      Passes c place ⟨place.document, schema, place.path.push (.branch combinator i)⟩
  /-- To the target of a reference. -/
  | target {found : Place} (leads : c.Leads place found) : Passes c place found

/-- The path is met from one of the starts. -/
def MetFrom (c : Corpus) (starts : List Reference) (path : Reference) : Prop :=
  ∃ start ∈ starts, c.Reaches start path

theorem MetFrom.step {path next : Reference} (h : c.MetFrom starts path) (hstep : c.Step path next) :
    c.MetFrom starts next := by
  obtain ⟨start, hstart, hreaches⟩ := h
  exact ⟨start, hstart, hreaches.tail hstep⟩

/-- A schema with a name of its own, which is met from one of the starts, hands its name down to the
schema at a place. -/
structure Lends (c : Corpus) (starts : List Reference) (place : Place) (name : String)
    (lender : Place) : Prop where
  located : c.Located lender
  is_schema : lender.IsSchema
  met : c.MetFrom starts lender.path
  own : lender.ownName? = some name
  passes : Relation.ReflTransGen c.Passes lender place

theorem Lends.pass {lender : Place} (h : c.Lends starts place name lender)
    (hpasses : c.Passes place next) : c.Lends starts next name lender :=
  ⟨h.located, h.is_schema, h.met, h.own, h.passes.tail hpasses⟩

theorem Lends.mono {starts' : List Reference} (hsub : starts ⊆ starts') {lender : Place}
    (h : c.Lends starts place name lender) : c.Lends starts' place name lender := by
  obtain ⟨start, hstart, hreaches⟩ := h.met
  exact ⟨h.located, h.is_schema, ⟨start, hsub hstart, hreaches⟩, h.own, h.passes⟩

/-- The names are only inferred, or they are one name that has been handed down to the schema. -/
def HandsDown (c : Corpus) (starts : List Reference) (place : Place) (names : Names) : Prop :=
  names.isInferred = true ∨ ∃ name lender, names = .given name ∧ c.Lends starts place name lender

/-- A located schema whose path leads somewhere in the text. -/
structure SchemaAt (c : Corpus) (place : Place) : Prop where
  located : c.Located place
  is_schema : place.IsSchema
  addressable : place.path.IsAddressable

theorem HandsDown.pass {names : Names} (h : c.HandsDown starts place names)
    (hpasses : c.Passes place next) : c.HandsDown starts next names :=
  h.imp_right fun ⟨name, lender, hname, hlends⟩ => ⟨name, lender, hname, hlends.pass hpasses⟩

/-- The names of a schema are handed down to it if those passed to it are: its own name is so by the
schema itself. -/
theorem SchemaAt.handsDown_namesOf (h : c.SchemaAt place) (hmet : c.MetFrom starts place.path)
    {hints : Names} (hhints : c.HandsDown starts place hints) :
    c.HandsDown starts place (Attributes.namesOf place.fragment place.path hints) := by
  rw [Attributes.namesOf_eq]
  split
  · cases hown : place.ownName? with
    | none => exact hhints
    | some own =>
      exact Or.inr ⟨own, place, rfl, h.located, h.is_schema, hmet, hown, .refl⟩
  · exact hhints

/-- A schema with a name of its own never has inferred names. -/
theorem exists_lends_of_own {hints : Names} {own : String} (hown : place.ownName? = some own)
    (h : c.HandsDown starts place (Attributes.namesOf place.fragment place.path hints)) :
    ∃ name lender, Attributes.namesOf place.fragment place.path hints = .given name ∧
      c.Lends starts place name lender := by
  refine h.resolve_left fun hinferred => ?_
  rw [Attributes.namesOf_eq, hown] at hinferred
  split at hinferred
  · cases hinferred
  · next hgiven => exact hgiven hinferred

end Corpus

/-! ## Attributes of nodes -/

namespace TypeGraph

variable {g : TypeGraph} {t u : NodeId}

/-- The node is an intersection, with or without members. -/
def IsIntersection (g : TypeGraph) (t : NodeId) : Prop :=
  ∃ members, g.shape? t = some (.combination .intersection members)

theorem IsIntersection.lt_length (h : g.IsIntersection t) : t < g.nodes.length := by
  obtain ⟨members, ht⟩ := h
  exact lt_length_of_shape? ht

theorem IsIntersection.keeps {h : TypeGraph} (hg : g.IsIntersection t) (hgh : g.Keeps h) :
    h.IsIntersection t :=
  hg.imp fun _ ht => hgh t _ ht

theorem IsIntersection.replaceMembers (h : g.IsIntersection t) (u : NodeId)
    (members : SortedSet NodeId) : (g.replaceMembers u members).IsIntersection t := by
  obtain ⟨old, ht⟩ := h
  unfold IsIntersection
  rw [shape?_replaceMembers]
  split
  · next heq =>
    subst heq
    exact ⟨some members, by rw [ht]; rfl⟩
  · exact ⟨old, ht⟩

end TypeGraph

/-! ## Names of nodes -/

namespace Progress

variable {c : Corpus} {starts pending : List Reference}
  {kept : Reference → NodeId → Names → Prop} {s : Progress MemoryStore}

/-- Every schema whose path stands for a node has an intersection of its own there.  Unless it is
pending, and if it has a name of its own, its node goes by a name that has been handed down to it; and
certain paths stand for intersections with certain names. -/
structure Named (c : Corpus) (starts pending : List Reference)
    (kept : Reference → NodeId → Names → Prop) (s : Progress MemoryStore) : Prop where
  documents_eq : s.documents = c.store
  indexed : s.graph.Indexed
  intersection : ∀ place t, c.SchemaAt place → s.nodeOf? place.path = some t →
    s.graph.IsIntersection t
  distinct : ∀ place other t, c.SchemaAt place → c.SchemaAt other →
    s.nodeOf? place.path = some t → s.nodeOf? other.path = some t → place.path = other.path
  lent : ∀ place t own, c.SchemaAt place → s.nodeOf? place.path = some t → place.path ∉ pending →
    place.ownName? = some own → ∃ name lender,
      (s.graph.attributes t).names = .given name ∧ c.Lends starts place name lender
  kept_names : ∀ path t names, kept path t names → s.nodeOf? path = some t ∧
    s.graph.IsIntersection t ∧ (s.graph.attributes t).names = names

namespace Named

/-- A graph that leaves intersections and their attributes alone may take the place of the graph. -/
theorem setGraph (h : s.Named c starts pending kept) {g : TypeGraph} (hindexed : g.Indexed)
    (hintersection : ∀ t, s.graph.IsIntersection t → g.IsIntersection t)
    (hattributes : ∀ t, s.graph.IsIntersection t → g.attributes t = s.graph.attributes t) :
    Named c starts pending kept { s with graph := g } where
  documents_eq := h.documents_eq
  indexed := hindexed
  intersection place t hplace ht := hintersection t (h.intersection place t hplace ht)
  distinct := h.distinct
  lent place t own hplace ht hpending hown := by
    obtain ⟨name, lender, hname, hlends⟩ := h.lent place t own hplace ht hpending hown
    refine ⟨name, lender, ?_, hlends⟩
    rw [← hname]
    exact congrArg Attributes.names (hattributes t (h.intersection place t hplace ht))
  kept_names path t names hkept := by
    obtain ⟨ht, hintersection', hnames⟩ := h.kept_names path t names hkept
    refine ⟨ht, hintersection t hintersection', ?_⟩
    rw [← hnames]
    exact congrArg Attributes.names (hattributes t hintersection')

theorem intern (h : s.Named c starts pending kept) {shape : Shape}
    (hshape : shape.isCombination = false) :
    Named c starts pending kept { s with graph := (s.graph.intern shape).2 } := by
  have hspec := TypeGraph.intern_spec h.indexed hshape
  exact h.setGraph hspec.indexed (fun t ht => ht.keeps hspec.keeps)
    fun t _ => TypeGraph.attributes_intern s.graph shape t

theorem declare (h : s.Named c starts pending kept) (operation : Operation) :
    Named c starts pending kept { s with graph := (s.graph.declare operation).2 } := by
  have hspec := TypeGraph.declare_spec h.indexed operation
  exact h.setGraph hspec.indexed (fun t ht => ht.keeps hspec.keeps)
    fun t _ => TypeGraph.attributes_allocate s.graph _ t

theorem replaceMembers (h : s.Named c starts pending kept) (t : NodeId)
    (members : SortedSet NodeId) :
    Named c starts pending kept { s with graph := s.graph.replaceMembers t members } :=
  h.setGraph (h.indexed.replaceMembers t members) (fun _ hu => hu.replaceMembers t members)
    fun u _ => s.graph.attributes_replaceMembers t members u

/-- Attributes are of no account for nodes of pending schemas and for those that are not the nodes of
schemas, as long as their names are not kept. -/
theorem addAttributes (h : s.Named c starts pending kept) {t : NodeId}
    (hpending : ∀ place, c.SchemaAt place → s.nodeOf? place.path = some t → place.path ∈ pending)
    (hkept : ∀ path u names, kept path u names → u ≠ t) (attributes : Attributes) :
    Named c starts pending kept { s with graph := s.graph.addAttributes t attributes } := by
  have hkeeps := s.graph.keeps_addAttributes t attributes
  have hothers : ∀ u, s.graph.IsIntersection u → u ≠ t →
      ((s.graph.addAttributes t attributes).attributes u).names = (s.graph.attributes u).names :=
    fun _ _ hne => congrArg Attributes.names
      (TypeGraph.attributes_addAttributes_of_ne s.graph hne attributes)
  exact
    { documents_eq := h.documents_eq
      indexed := h.indexed.of_retains hkeeps.retains (s.graph.interned_addAttributes t attributes)
      intersection := fun place u hplace hu => (h.intersection place u hplace hu).keeps hkeeps
      distinct := h.distinct
      lent := fun place u own hplace hu hsettled hown => by
        have hne : u ≠ t := by
          rintro rfl
          exact hsettled (hpending place hplace hu)
        obtain ⟨name, lender, hname, hlends⟩ := h.lent place u own hplace hu hsettled hown
        exact ⟨name, lender, (hothers u (h.intersection place u hplace hu) hne).trans hname, hlends⟩
      kept_names := fun path u names hpath => by
        obtain ⟨hu, hintersection, hnames⟩ := h.kept_names path u names hpath
        exact ⟨hu, hintersection.keeps hkeeps,
          (hothers u hintersection (hkept path u names hpath)).trans hnames⟩ }

/-- A new binding of a path at which no schema stands. -/
theorem bindOther (h : s.Named c starts pending kept) {path : Reference}
    (hpath : ∀ place, c.SchemaAt place → place.path ≠ path) (hfree : s.nodeOf? path = none)
    (t : NodeId) : Named c starts pending kept { s with bound := (path, t) :: s.bound } := by
  have hold : ∀ place u, c.SchemaAt place →
      ({ s with bound := (path, t) :: s.bound } : Progress MemoryStore).nodeOf? place.path =
        some u → s.nodeOf? place.path = some u := by
    intro place u hplace hu
    rw [nodeOf?_bind, if_neg (hpath place hplace)] at hu
    exact hu
  exact
    { documents_eq := h.documents_eq
      indexed := h.indexed
      intersection := fun place u hplace hu => h.intersection place u hplace (hold place u hplace hu)
      distinct := fun place other u hplace hother hu hu' =>
        h.distinct place other u hplace hother (hold place u hplace hu) (hold other u hother hu')
      lent := fun place u own hplace hu => h.lent place u own hplace (hold place u hplace hu)
      kept_names := fun other u names hkept =>
        (h.kept_names other u names hkept).imp_left (bound_bind hfree t) }

/-- Less may be kept. -/
theorem forget (h : s.Named c starts pending kept) {kept' : Reference → NodeId → Names → Prop}
    (hsub : ∀ path t names, kept' path t names → kept path t names) :
    s.Named c starts pending kept' :=
  { h with kept_names := fun path t names hkept => h.kept_names path t names (hsub path t names hkept) }

theorem setChain (h : s.Named c starts pending kept) (chain : List Reference) :
    Named c starts pending kept { s with chain := chain } :=
  ⟨h.documents_eq, h.indexed, h.intersection, h.distinct, h.lent, h.kept_names⟩

/-- Conversions may start at more places. -/
theorem mono (h : s.Named c starts pending kept) {starts' : List Reference}
    (hsub : starts ⊆ starts') : s.Named c starts' pending kept where
  documents_eq := h.documents_eq
  indexed := h.indexed
  intersection := h.intersection
  distinct := h.distinct
  lent place t own hplace ht hpending hown := by
    obtain ⟨name, lender, hname, hlends⟩ := h.lent place t own hplace ht hpending hown
    exact ⟨name, lender, hname, hlends.mono hsub⟩
  kept_names := h.kept_names

/-- At the start there are no nodes. -/
theorem start (c : Corpus) (starts : List Reference) :
    (Progress.start c.store).Named c starts [] fun _ _ _ => False :=
  ⟨rfl, nofun, nofun, nofun, nofun, nofun⟩

end Named

/-- The path of one more schema goes on to stand for a node with certain names. -/
def alsoKept (kept : Reference → NodeId → Names → Prop) (path : Reference) (t : NodeId)
    (names : Names) : Reference → NodeId → Names → Prop := fun other u names' =>
  kept other u names' ∨ other = path ∧ u = t ∧ names' = names

namespace Named

/-- The names that an intersection has are kept. -/
theorem keep (h : s.Named c starts pending kept) {path : Reference} {t : NodeId} {names : Names}
    (hpath : s.nodeOf? path = some t) (ht : s.graph.IsIntersection t)
    (hnames : (s.graph.attributes t).names = names) :
    s.Named c starts pending (alsoKept kept path t names) where
  documents_eq := h.documents_eq
  indexed := h.indexed
  intersection := h.intersection
  distinct := h.distinct
  lent := h.lent
  kept_names other u names' hkept := by
    rcases hkept with hkept | ⟨rfl, rfl, rfl⟩
    · exact h.kept_names other u names' hkept
    · exact ⟨hpath, ht, hnames⟩

/-- The path of a schema is bound to a new intersection.  From then on the schema is pending, and its
node has no names. -/
theorem bindSchema (h : s.Named c starts pending kept) {place : Place}
    (hfree : s.nodeOf? place.path = none) {t : NodeId} (ht : s.graph.IsIntersection t)
    (hnew : ∀ other u, c.SchemaAt other → s.nodeOf? other.path = some u → u ≠ t)
    (hnames : (s.graph.attributes t).names = .empty) :
    Named c starts (place.path :: pending) (alsoKept kept place.path t .empty)
      { s with bound := (place.path, t) :: s.bound } := by
  have hcases : ∀ (other : Place) u,
      ({ s with bound := (place.path, t) :: s.bound } : Progress MemoryStore).nodeOf? other.path =
        some u → other.path = place.path ∧ u = t ∨
          other.path ≠ place.path ∧ s.nodeOf? other.path = some u := by
    intro other u hu
    rw [nodeOf?_bind] at hu
    split at hu
    · next heq =>
      cases hu
      exact Or.inl ⟨heq, rfl⟩
    · next hne => exact Or.inr ⟨hne, hu⟩
  refine ⟨h.documents_eq, h.indexed, fun other u hother hu => ?_, fun other third u hother hthird => ?_,
    fun other u own hother hu hpending hown => ?_, fun path u names hkept => ?_⟩
  · rcases hcases other u hu with ⟨-, rfl⟩ | ⟨-, hu⟩
    · exact ht
    · exact h.intersection other u hother hu
  · intro hu hu'
    rcases hcases other u hu with ⟨heq, rfl⟩ | ⟨-, hold⟩
    · rcases hcases third u hu' with ⟨heq', -⟩ | ⟨-, hold'⟩
      · rw [heq, heq']
      · exact absurd rfl (hnew third u hthird hold')
    · rcases hcases third u hu' with ⟨-, rfl⟩ | ⟨-, hold'⟩
      · exact absurd rfl (hnew other u hother hold)
      · exact h.distinct other third u hother hthird hold hold'
  · obtain ⟨hne, hpending⟩ := not_or.1 (mt List.mem_cons.2 hpending)
    rcases hcases other u hu with ⟨heq, -⟩ | ⟨-, hold⟩
    · exact absurd heq hne
    · exact h.lent other u own hother hold hpending hown
  · rcases hkept with hkept | ⟨rfl, rfl, rfl⟩
    · exact (h.kept_names path u names hkept).imp_left (bound_bind hfree t)
    · refine ⟨?_, ht, hnames⟩
      rw [nodeOf?_bind, if_pos rfl]

/-- A schema is not pending any more once its node goes by a name that has been handed down to it. -/
theorem release {path : Reference} (h : s.Named c starts (path :: pending) kept)
    (hlent : ∀ place t own, c.SchemaAt place → place.path = path → s.nodeOf? path = some t →
      place.ownName? = some own → ∃ name lender,
        (s.graph.attributes t).names = .given name ∧ c.Lends starts place name lender) :
    s.Named c starts pending kept where
  documents_eq := h.documents_eq
  indexed := h.indexed
  intersection := h.intersection
  distinct := h.distinct
  lent place t own hplace ht hpending hown := by
    by_cases heq : place.path = path
    · exact hlent place t own hplace heq (heq ▸ ht) hown
    · exact h.lent place t own hplace ht (mt List.mem_cons.1 (not_or.2 ⟨heq, hpending⟩)) hown
  kept_names := h.kept_names

/-- The node of a schema gets names that have been handed down to it.  The schema is not pending any
more. -/
theorem settle {place : Place} {t : NodeId}
    (h : s.Named c starts (place.path :: pending) (alsoKept kept place.path t .empty))
    (hplace : c.SchemaAt place) (hkept : ∀ path u names, kept path u names → u ≠ t)
    {hints : Names} (hmet : c.MetFrom starts place.path) (hhints : c.HandsDown starts place hints) :
    Named c starts pending (alsoKept kept place.path t (Names.empty.merge
        (Attributes.namesOf place.fragment place.path hints)))
      { s with graph := s.graph.addAttributes t (.ofSchema place.fragment place.path hints) } := by
  obtain ⟨hpath, ht, hnone⟩ := h.kept_names place.path t .empty (Or.inr ⟨rfl, rfl, rfl⟩)
  have hnames := congrArg Attributes.names (TypeGraph.attributes_addAttributes_self ht.lt_length
    (.ofSchema place.fragment place.path hints))
  unfold Attributes.merge at hnames
  rw [hnone] at hnames
  have hattributed := (h.forget fun _ _ _ => Or.inl).addAttributes (t := t)
    (fun other hother hu => List.mem_cons.2 (Or.inl (h.distinct other place t hother hplace hu hpath)))
    hkept (.ofSchema place.fragment place.path hints)
  refine (hattributed.release fun other u own hother heq hu hown => ?_).keep hpath
    (ht.keeps (s.graph.keeps_addAttributes t _)) hnames
  obtain rfl := hother.located.eq_of_path_eq hplace.located heq
  obtain rfl := Option.some.inj (hpath.symm.trans hu)
  obtain ⟨name, lender, hname, hlends⟩ :=
    Corpus.exists_lends_of_own hown (hplace.handsDown_namesOf hmet hhints)
  refine ⟨name, lender, hnames.trans ?_, hlends⟩
  unfold Attributes.ofSchema
  rw [hname]
  rfl

end Named

end Progress

/-! ## Schemas -/

namespace Conversion

variable {c : Corpus} {starts pending : List Reference} {kept : Reference → NodeId → Names → Prop}
  {place : Place} {hints : Names} {s : Progress MemoryStore} {recur : Converter MemoryStore}

/-- A place at which a conversion may be asked for, with names for it: it is met from one of the starts,
and the names have been handed down to it. -/
structure Asked (c : Corpus) (starts : List Reference) (s : Progress MemoryStore) (place : Place)
    (hints : Names) : Prop where
  met : c.MetFrom starts place.path
  addressable : place.path.IsAddressable
  located : (∃ t, s.nodeOf? place.path = some t) ∨ c.Located place
  handed : c.HandsDown starts place hints

/-- A conversion gives nodes only names that have been handed down. -/
def NamedConverter (c : Corpus) (starts : List Reference) (recur : Converter MemoryStore) : Prop :=
  ∀ (pending : List Reference) (kept : Reference → NodeId → Names → Prop) (place : Place)
    (hints : Names) (s : Progress MemoryStore), s.Named c starts pending kept →
      Asked c starts s place hints →
        Meets (recur place hints) s (fun _ s' => s'.Named c starts pending kept) fun _ _ => True

/-- What is known of the names of nodes.  Attributes may be attached to any node but an intersection. -/
def keepsNames (c : Corpus) (starts pending : List Reference)
    (kept : Reference → NodeId → Names → Prop) : Coupling MemoryStore :=
  .single (fun s => s.Named c starts pending kept) (fun _ => True)
    fun s t => ¬ s.graph.IsIntersection t

theorem keepsNames_stable (a : Attributes) : (keepsNames c starts pending kept).Stable a a := by
  refine .single (fun s shape hshape hs => ⟨hs.intern hshape, ?_⟩)
    (fun s operation hs => hs.declare operation)
    (fun s t members hs => hs.replaceMembers t members)
    (fun s t ht hs => ?_) ?_ ?_ fun _ _ => trivial
  · rintro - ⟨members, ht⟩
    rw [(TypeGraph.intern_spec hs.indexed hshape).has_shape] at ht
    cases ht
    cases hshape
  · refine hs.addAttributes (fun place hplace hbound => ?_) (fun path u names hkept => ?_) a
    · exact absurd (hs.intersection place t hplace hbound) ht
    · rintro rfl
      exact ht (hs.kept_names path u names hkept).2.1
  · rintro s t members ht ⟨others, ht'⟩
    rw [ht] at ht'
    cases ht'
  · intro s path t hpath hfree hs
    refine hs.bindOther ?_ hfree t
    rintro place hplace rfl
    exact hpath hplace.addressable

/-- The names that a schema hands to those inside it: to those under a combinator its own, to others
only inferred ones. -/
theorem asked_of_hands (hplace : c.SchemaAt place) (hmet : c.MetFrom starts place.path)
    {names given : Names} (hnames : c.HandsDown starts place names) {child : Place}
    (hands : place.Hands names names child given given)
    (hchild : (∃ t, s.nodeOf? child.path = some t) ∨ place.Seats child) :
    Asked c starts s child given where
  met := hmet.step (hplace.located.step_inner hplace.is_schema hands.inner)
  addressable := hands.inner.isAddressable
  located := hchild.imp_right fun hseats => hseats c hplace.located
  handed := by
    cases hands with
    | branch hcases hschema => exact hnames.pass (.branch hplace.is_schema hcases hschema)
    | piece | property => exact Or.inl rfl

/-- All parts of a schema together. -/
theorem schemaMembers_named (hrec : NamedConverter c starts recur) (hremembers : Remembers recur)
    (hplace : c.SchemaAt place) (hmet : c.MetFrom starts place.path) {a : Attributes}
    (hnames : c.HandsDown starts place a.names) (hs : s.Named c starts pending kept) :
    Meets (schemaMembers recur place a) s (fun _ s' => s'.Named c starts pending kept)
      fun _ _ => True := by
  have hinner : InnerInStep (keepsNames c starts pending kept) place a.names a.names recur recur := by
    rintro child given given' hands _ u ⟨rfl, hu⟩ hchild
    obtain rfl := hands.eq rfl
    exact Meets.lockstep (hrec _ _ child given u hu (asked_of_hands hplace hmet hnames hands hchild))
  exact (schemaMembers_inStep (keepsNames_stable a) hinner hremembers).meets hs

/-- The node of a schema gets its names once the schemas inside it have been converted. -/
theorem convertSchema_named (hrec : NamedConverter c starts recur) (hremembers : Remembers recur)
    (hplace : c.SchemaAt place) (hs : s.Named c starts pending kept)
    (hfree : s.nodeOf? place.path = none) (hmet : c.MetFrom starts place.path)
    (hhints : c.HandsDown starts place hints) :
    Meets (convertSchema recur place (.ofSchema place.fragment place.path hints)) s
      (fun t s' => s'.Named c starts pending (Progress.alsoKept kept place.path t
        (Names.empty.merge (Attributes.namesOf place.fragment place.path hints))))
      fun _ _ => True := by
  have hnames := hplace.handsDown_namesOf hmet hhints
  have hspec := TypeGraph.declare_spec hs.indexed .intersection
  have hold : ∀ {u}, s.graph.IsIntersection u → u ≠ s.graph.nodes.length :=
    fun hu => Nat.ne_of_lt hu.lt_length
  have hnone : ((s.graph.declare .intersection).2.attributes s.graph.nodes.length).names = .empty := by
    unfold TypeGraph.attributes TypeGraph.declare
    rw [TypeGraph.nodes_allocate, List.getElem?_concat_length]
    rfl
  have hbound := (hs.declare .intersection).bindSchema hfree
    (t := s.graph.nodes.length) ⟨none, hspec.has_shape⟩
    (fun other u hother hu => hold (hs.intersection other u hother hu)) hnone
  rw [convertSchema_eq]
  refine Meets.andThen (Meets.onGraph (Meets.andThen (Meets.bind (fun _ => ?_) fun other hother => ?_)))
  · refine (schemaMembers_named hrec hremembers hplace hmet hnames hbound).seq fun members s₁ hs₁ => ?_
    refine (((keepsNames_stable .empty).setMembers _ members).meets hs₁).seq fun _ s₂ hs₂ => ?_
    refine Meets.andThen (Meets.addAttributes (Meets.pure ?_))
    exact hs₂.settle hplace
      (fun path u names hkept => hold (hs.kept_names path u names hkept).2.1) hmet hhints
  · exact absurd (hfree.symm.trans hother) nofun

/-! ## References -/

/-- A reference passes names on as long as they are not inferred. -/
theorem handsDown_targetHints {found : Place} (hhints : c.HandsDown starts place hints)
    (hleads : c.Leads place found) {target : Reference} {names : Names}
    (hnames : targetHints target hints = .ok names) : c.HandsDown starts found names := by
  unfold targetHints at hnames
  split at hnames
  · next hinferred =>
    cases hhint : target.hint with
    | error e =>
      rw [hhint] at hnames
      cases hnames
    | ok name? =>
      rw [hhint] at hnames
      cases name? with
      | none =>
        cases hnames
        exact Or.inl hinferred
      | some name =>
        cases hnames
        exact Or.inl rfl
  · cases hnames
    exact hhints.pass (.target hleads)

section Places

variable (hc : c.Consistent) (hrec : NamedConverter c starts recur)

include hc hrec

theorem follow_named (hplace : c.Located place) (hs : s.Named c starts pending kept)
    (hasked : Asked c starts s place hints) {value : Json}
    (hvalue : place.fragment.get? "$ref" = some value) :
    Meets (follow recur place value hints) s (fun _ s' => s'.Named c starts pending kept)
      fun _ _ => True := by
  refine follow_meets hc hplace hasked.addressable hs.documents_eq hvalue (fun _ _ _ _ => trivial)
    (fun _ _ _ _ _ => trivial) fun found _ names _ hleads hfound hreach hnames _ => ?_
  have hfollowed : Asked c starts { s with chain := s.chain ++ [place.path] } found names :=
    ⟨hasked.met.step (hplace.step_leads hleads), hreach, Or.inr hfound,
      handsDown_targetHints hasked.handed hleads hnames⟩
  exact (hrec pending kept found names _ (hs.setChain _) hfollowed).imp
    fun _ _ ht => ht.setChain _

/-! ## Places -/

/-- The node of a place at which no schema stands. -/
theorem convertFragment_named (hplace : c.Located place) (hschema : ¬ place.IsSchema)
    (hs : s.Named c starts pending kept) (hasked : Asked c starts s place hints) :
    Meets (convertFragment recur place hints) s (fun _ s' => s'.Named c starts pending kept)
      fun _ _ => True := by
  have hstable : (keepsNames c starts pending kept).Stable
      (.ofSchema place.fragment place.path hints) (.ofSchema place.fragment place.path hints) :=
    keepsNames_stable _
  rcases place.view with ⟨b, hb⟩ | ⟨value, hvalue⟩ | ⟨cases, href, hcases⟩ | hschema' | ⟨hbool, hobj⟩
  · rw [convertFragment_of_bool recur hints hb]
    exact (hstable.intern_inStep rfl).meets hs
  · rw [convertFragment_of_reference recur hints hvalue]
    exact follow_named hc hrec hplace hs hasked hvalue
  · rw [convertFragment_of_enum recur hints href hcases]
    exact (convertEnum_inStep hstable cases place.path).meets hs
  · exact absurd hschema' hschema
  · rw [convertFragment_of_none recur hints hbool hobj]
    exact Meets.throw trivial

omit hc in
/-- The node of a place at which a schema stands keeps its names. -/
theorem convertPlace_keeps (hremembers : Remembers recur) (hplace : c.SchemaAt place)
    (hs : s.Named c starts pending kept) (hfree : s.nodeOf? place.path = none)
    (hmet : c.MetFrom starts place.path) (hhints : c.HandsDown starts place hints) :
    Meets (convertPlace recur place hints) s
      (fun t s' => s'.Named c starts pending (Progress.alsoKept kept place.path t
        (Names.empty.merge (Attributes.namesOf place.fragment place.path hints))))
      fun _ _ => True := by
  have href : place.fragment.has "$ref" = false :=
    Json.has_eq_false_iff.2 hplace.is_schema.no_reference
  rw [convertPlace_eq, href, convertFragment_of_isSchema recur hints hplace.is_schema]
  refine Meets.seq (Meets.withChain ((convertSchema_named hrec hremembers hplace (hs.setChain [])
    hfree hmet hhints).imp fun t s₁ hs₁ => hs₁.setChain s.chain)) fun t s₁ hs₁ => ?_
  have hpath := (hs₁.kept_names place.path t _ (Or.inr ⟨rfl, rfl, rfl⟩)).1
  refine Meets.andThen (Meets.bind (fun hnone => ?_) fun other hother => ⟨?_, Meets.pure hs₁⟩)
  · exact absurd (hnone.symm.trans hpath) nofun
  · exact Option.some.inj (hother.symm.trans hpath)

theorem convertPlace_named (hremembers : Remembers recur) (hplace : c.Located place)
    (hs : s.Named c starts pending kept) (hfree : s.nodeOf? place.path = none)
    (hasked : Asked c starts s place hints) :
    Meets (convertPlace recur place hints) s (fun _ s' => s'.Named c starts pending kept)
      fun _ _ => True := by
  by_cases hschema : place.IsSchema
  · exact (convertPlace_keeps hrec hremembers ⟨hplace, hschema, hasked.addressable⟩ hs hfree
      hasked.met hasked.handed).imp fun _ _ ht => ht.forget fun _ _ _ => Or.inl
  · have hother : ∀ other, c.SchemaAt other → other.path ≠ place.path := by
      intro other hother heq
      obtain rfl := hother.located.eq_of_path_eq hplace heq
      exact hschema hother.is_schema
    have hbind : ∀ t, InStep (keepsNames c starts pending kept)
        (bind place.path t) (bind place.path t) :=
      fun t => bind_single (fun _ hfree hs => hs.bindOther hother hfree t) trivial
    rw [convertPlace_eq]
    refine Meets.seq ?_ fun t s₁ hs₁ => ((hbind t).andThen fun _ => .pure t).meets hs₁
    split
    · exact convertFragment_named hc hrec hplace hschema hs hasked
    · have hasked' : Asked c starts { s with chain := [] } place hints :=
        ⟨hasked.met, hasked.addressable, hasked.located, hasked.handed⟩
      refine Meets.withChain ((convertFragment_named hc hrec hplace hschema (hs.setChain [])
        hasked').imp fun _ _ ht => ht.setChain s.chain)

end Places

/-- The conversion of a place gives nodes only names that have been handed down.

**Proof sketch.** Induction on the budget.  A path that stands for a node is not converted anew, so its
node keeps the names that it has got when it was met first. -/
theorem toType_named (hc : c.Consistent) (limit budget : Nat) :
    NamedConverter c starts (toType limit budget) := by
  induction budget with
  | zero =>
    intro pending kept place hints s hs _
    exact Meets.boundOr (fun _ _ => hs) fun _ => Meets.throw trivial
  | succ budget ih =>
    intro pending kept place hints s hs hasked
    refine Meets.boundOr (fun _ _ => hs) fun hbound => ?_
    have hplace := Progress.resolve_bound hasked.located hbound
    exact convertPlace_named hc ih (toType_remembers limit budget) hplace hs hbound hasked

end Conversion

end ShapeGraph
