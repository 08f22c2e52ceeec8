import ShapeGraph.Proofs.Frames
import ShapeGraph.Proofs.Parts

/-!
# Conversions give the nodes that schemas call for

A conversion of a schema, however deep schemas may be nested, either gives the node that is described
for it or fails because of something that it meets on its way.

## Main definitions

* `Conversion.FragmentNode` — the node of a fragment whose path may still be free.

## Main results

* `Conversion.follow_meets` — what happens when a reference is followed.
* `Conversion.follow_builds` — a reference becomes the node of its target.
* `Conversion.convertSchema_builds` — a schema becomes the intersection that its keywords call for.
* `Conversion.toType_sound` — the conversion at any budget keeps the invariant.

## Design

While a reference is followed its path may be bound by a conversion further on, which meets the same
reference again.  It is then bound to the node of the same target, so the binding that comes last does
not disagree with it.
-/

set_option autoImplicit false

namespace ShapeGraph

namespace Conversion

open Progress

variable {c : Corpus} {recur : Converter MemoryStore} {pending : List Reference}
  {place : Place} {s s' : Progress MemoryStore}

/-! ## Schemas -/

/-- Where a path stands for no node, neither do the keys of its types. -/
theorem nodeOf?_push_eq_none (hs : s.Sound c pending) {path : Reference}
    (hfree : s.nodeOf? path = none) {e : PathElement} (he : e.isAddressable = false) :
    s.nodeOf? (path.push e) = none := by
  cases hkey : s.nodeOf? (path.push e) with
  | none => rfl
  | some t =>
    obtain ⟨n, hn⟩ := hs.parents path e he ⟨t, hkey⟩
    rw [hfree] at hn
    cases hn

/-- The node of a schema that is neither reference nor enum.

**Proof sketch.** The path is pending while its parts are converted.  None of the combinators touches
the keys of the schema's own types, so they are still free when the types are converted. -/
theorem convertSchema_builds (hrec : SoundConverter c recur) (hplace : c.Located place)
    (hschema : place.IsSchema) (haddressable : place.path.IsAddressable) (hs : s.Sound c pending)
    (hchain : s.chain = []) (hfree : s.nodeOf? place.path = none) (attributes : Attributes) :
    Builds c pending [] place.path (convertSchema recur place attributes) s
      (fun t s' => s'.nodeOf? place.path = some t ∧ c.Describes s' place t) := by
  have hgrounded : c.Grounded place := .schema hschema.no_reference
  unfold convertSchema
  refine Meets.andThen (hs.declare [place.path] .intersection
    fun intersection s₁ hs₁ hnew hunset₁ hbound₁ => ?_)
  rw [← hbound₁] at hfree
  refine Meets.andThen (hs₁.sound.bindPending [place.path] hplace hgrounded haddressable hfree
    intersection fun s₂ hsound₂ hgrows₂ hpath₂ hgraph₂ hkeys₂ => ?_)
  have hs₂ : s.Advances c (place.path :: pending) [place.path] s₂ :=
    ⟨hsound₂, hs₁.grows.trans hgrows₂⟩
  have hstage₂ : c.Stage (place.path :: pending) place s₂ :=
    ⟨hplace, hschema, hsound₂, hs₂.grows.chain_eq.trans hchain⟩
  refine (convertAllOf_builds hrec hstage₂ attributes.names).seq
    fun all s₃ ⟨hs₃, allNodes, hall, hallMembers⟩ => ?_
  refine (convertChoice_builds hrec .oneOf (hstage₂.advance hs₃) attributes.names).seq
    fun one s₄ ⟨hs₄, one?, hone, honeMembers⟩ => ?_
  have hs₂₄ := hs₃.trans hs₄
  refine (convertChoice_builds hrec .anyOf (hstage₂.advance hs₂₄) attributes.names).seq
    fun any s₅ ⟨hs₅, any?, hany, hanyMembers⟩ => ?_
  have hs₂₅ := hs₂₄.trans hs₅
  have hpath₅ := hs₂₅.retains.bound _ _ hpath₂
  have hfree₅ : ∀ e : PathElement, e.isAddressable = false →
      s₅.nodeOf? (place.path.push e) = none := by
    intro e he
    refine hs₂₅.grows.fresh _ e he List.not_mem_nil ⟨_, hpath₂⟩ ?_
    rw [hkeys₂ e he, nodeOf?_push_eq_none hs₁.sound hfree he]
  refine (convertTypes_builds hrec (hstage₂.advance hs₂₅) ⟨_, hpath₅⟩ hfree₅ attributes).seq
    fun types s₆ ⟨hs₆, hlisted, types?, htypes, htypeMembers⟩ => ?_
  have hmembers := ((hallMembers.union honeMembers).union hanyMembers).union htypeMembers
  have hs₂₆ := hs₂₅.weaken.trans hs₆
  have hunset₆ : s₆.graph.shape? intersection = some (.combination .intersection none) :=
    hs₂₆.grows.keeps _ _ (hgrows₂.keeps _ _ hunset₁)
  refine fillOr_then (hs₂.trans hs₂₆) hnew hunset₆ (orAny_builds [place.path] hs₆.sound hmembers)
    IsAny.mono fun s₇ hs₇ hs₆₇ hcombines => ?_
  refine Meets.andThen (hs₇.sound.addAttributes [place.path] intersection attributes
    fun s₈ hs₈ _ _ => ?_)
  -- each part has been described at some earlier moment, and nothing has been lost since
  have hs₅₇ := hs₆.retains.trans hs₆₇
  have hs₄₇ := hs₅.retains.trans hs₅₇
  have hs₃₇ := hs₄.retains.trans hs₄₇
  have hnode : s₇.SchemaNode place intersection :=
    ⟨allNodes, one?, any?, types?, hall.mono hs₃₇, hone.mono hs₄₇, hany.mono hs₅₇, hlisted,
      htypes.mono hs₆₇, hcombines⟩
  have hdescribes : c.Describes s₈ place intersection :=
    (Corpus.describes_iff_of_isSchema hschema).2 (hnode.mono hs₈.retains)
  have hpath₈ : s₈.nodeOf? place.path = some intersection :=
    hs₈.retains.bound _ _ (hs₅₇.bound _ _ hpath₅)
  have hsound₈ := hs₈.sound.settle (Corpus.located_iff.1 hplace) hpath₈ hdescribes
  rw [hbound₁] at hfree
  exact Meets.pure ⟨⟨hsound₈, (hs₇.trans hs₈).grows.forget hfree⟩, hpath₈, hdescribes⟩

/-! ## References -/

/-- The place that the value of `$ref` leads to, or a failure if it leads nowhere, which is no cycle. -/
theorem locate_meets (hs : s.documents = c.store) {value : Json} {text : String}
    (htext : value.text? = some text) :
    Meets (locate place (.parse place.path.address text)) s
      (fun found s' => s' = s ∧ c.target? place value = some found)
      (fun e s' => s' = s ∧ e.isLogicFault = false ∧ e.isCycle = false ∧
        c.target? place value = none) := by
  have haddressable : ∀ e ∈ (Reference.parse place.path.address text).elements,
      e.isAddressable = true := fun e he => Reference.isAddressable_of_mem_parse he
  have herror : ∀ {p : Place} {e : Failure},
      p.lookup (Reference.parse place.path.address text) = .error e →
        e.isLogicFault = false ∧ e.isCycle = false := fun he =>
    ⟨(Place.lookup_error he).2.2 haddressable, (Place.lookup_error he).2.1⟩
  unfold locate Corpus.target?
  rw [htext]
  dsimp only
  split
  · refine Meets.ofResult (fun found hfound => ⟨rfl, ?_⟩) fun e he =>
      ⟨rfl, (herror he).1, (herror he).2, ?_⟩
    · rw [hfound]
      rfl
    · rw [he]
      rfl
  · refine Meets.andThen (Meets.fetch (fun document hdocument => ?_) fun hmissing =>
      ⟨rfl, rfl, rfl, ?_⟩)
    · rw [hs] at hdocument
      rw [hdocument, Option.bind_some]
      refine Meets.ofResult (fun found hfound => ⟨rfl, ?_⟩) fun e he =>
        ⟨rfl, (herror he).1, (herror he).2, ?_⟩
      · rw [hfound]
        rfl
      · rw [he]
        rfl
    · rw [hs] at hmissing
      rw [hmissing]
      rfl

/-- A reference that has been read always has names for its target. -/
theorem exists_targetHints (base text : String) (hints : Names) :
    ∃ names, targetHints (.parse base text) hints = .ok names := by
  unfold targetHints
  split
  · cases hhint : (Reference.parse base text).hint with
    | error e =>
      exact absurd hhint (Reference.hint_ne_error fun _ he => Reference.isAddressable_of_mem_parse he)
    | ok name? =>
      cases name? with
      | none => exact ⟨hints, rfl⟩
      | some name => exact ⟨.inferred name, rfl⟩
  · exact ⟨hints, rfl⟩

/-- Following a reference fails if it leads nowhere or if its target is among those that are being
followed.  Otherwise the target is converted, while the reference is being followed, too. -/
theorem follow_meets (hc : c.Consistent) (hplace : c.Located place)
    (haddressable : place.path.IsAddressable) (hs : s.documents = c.store) {value : Json}
    (hvalue : place.fragment.get? "$ref" = some value) {hints : Names}
    {post : NodeId → Progress MemoryStore → Prop} {fault : Failure → Progress MemoryStore → Prop}
    (hnowhere : ∀ e : Failure, e.isLogicFault = false → e.isCycle = false →
      c.target? place value = none → fault e s)
    (hcyclic : ∀ found hops, c.Leads place found → c.Located found →
      cycle? s.chain place.path found.path = some hops →
        fault (.unresolved found.path (.cycle hops)) s)
    (hfollowed : ∀ found target names, c.target? place value = some found →
      c.Leads place found → c.Located found → found.path.IsAddressable →
        targetHints target hints = .ok names →
          cycle? s.chain place.path found.path = none →
            Meets (recur found names) { s with chain := s.chain ++ [place.path] }
              (fun t s' => post t { s' with chain := s'.chain.dropLast })
              fun e s' => fault e { s' with chain := s'.chain.dropLast }) :
    Meets (follow recur place value hints) s post fault := by
  unfold follow Reference.ofValue
  cases htext : value.text? with
  | none =>
    refine Meets.andThen (Meets.throw (hnowhere _ rfl rfl ?_))
    unfold Corpus.target?
    rw [htext]
  | some text =>
    refine Meets.andThen (Meets.pure ?_)
    obtain ⟨names, hnames⟩ := exists_targetHints place.path.address text hints
    rw [hnames]
    refine Meets.andThen (Meets.pure ?_)
    refine Meets.seq ((locate_meets hs htext).mono (fun _ _ h => h) ?_) ?_
    · rintro e _ ⟨rfl, hlogic, hcycle, hnone⟩
      exact hnowhere e hlogic hcycle hnone
    · rintro found _ ⟨rfl, htarget⟩
      obtain ⟨hfound, hreach⟩ := hplace.target hc haddressable htarget
      have hleads : c.Leads place found := ⟨value, hvalue, htarget⟩
      unfold followTo
      refine Meets.andThen (Meets.get ?_)
      dsimp only
      cases hcycle : cycle? _ place.path found.path with
      | some hops => exact Meets.throw (hcyclic found hops hleads hfound hcycle)
      | none =>
        exact Meets.whileFollowing
          (hfollowed found _ names htarget hleads hfound hreach hnames hcycle)

/-- A cycle is reported only where there is one. -/
theorem transGen_of_cycle? (hplace : c.Located place) {found : Place} (hfound : c.Located found)
    (hleads : c.Leads place found) {chain : List Reference} (htrail : c.Trail chain place)
    {hops : List Reference} (hcycle : cycle? chain place.path found.path = some hops) :
    Relation.TransGen c.Leads place place := by
  unfold cycle? at hcycle
  split at hcycle
  · next heq =>
    obtain rfl := hfound.eq_of_path_eq hplace heq
    exact Relation.TransGen.single hleads
  · obtain ⟨i, hi, -⟩ := Option.map_eq_some_iff.1 hcycle
    have hmem : found.path ∈ chain := by
      obtain ⟨hlt, heq, -⟩ := List.findIdx?_eq_some_iff_getElem.1 hi
      rw [← of_decide_eq_true heq]
      exact List.getElem_mem hlt
    obtain ⟨start, hstart, hback⟩ := htrail found.path hmem
    rw [Corpus.located_iff.1 hfound] at hstart
    cases hstart
    exact Relation.TransGen.head hleads hback

/-- As long as no cycle is found, the trail goes on to the target of the reference. -/
theorem trail_append (hplace : c.Located place) {found : Place} (hleads : c.Leads place found)
    {chain : List Reference} (htrail : c.Trail chain place) :
    c.Trail (chain ++ [place.path]) found := by
  intro path hpath
  rcases List.mem_append.1 hpath with hpath | hpath
  · obtain ⟨start, hstart, hback⟩ := htrail path hpath
    exact ⟨start, hstart, hback.tail hleads⟩
  · obtain rfl := List.mem_singleton.1 hpath
    exact ⟨place, Corpus.located_iff.1 hplace, Relation.TransGen.single hleads⟩

/-- A conversion with other references being followed advances as it does otherwise. -/
theorem advances_withChain {chain : List Reference}
    (h : Advances c pending [] { s with chain := chain } s') :
    s.Advances c pending [] { s' with chain := s.chain } :=
  ⟨h.sound.setChain s.chain,
    ⟨h.grows.keeps, h.grows.bound, h.grows.fresh, rfl, h.grows.topLevels_eq⟩⟩

/-- A conversion while one more reference is being followed advances as it does otherwise. -/
theorem advances_whileFollowing {path : Reference}
    (h : Advances c pending [] { s with chain := s.chain ++ [path] } s') :
    s.Advances c pending [] { s' with chain := s'.chain.dropLast } := by
  have hchain : s'.chain.dropLast = s.chain := by rw [h.grows.chain_eq, List.dropLast_concat]
  rw [hchain]
  exact advances_withChain h

/-- The node that a reference stands for: that of its target. -/
theorem follow_builds (hc : c.Consistent) (hrec : SoundConverter c recur) (hplace : c.Located place)
    (haddressable : place.path.IsAddressable) {value : Json}
    (hvalue : place.fragment.get? "$ref" = some value) (hs : s.Sound c pending)
    (htrail : c.Trail s.chain place) (hints : Names) :
    Builds c pending [] place.path (follow recur place value hints) s
      (fun t s' => ∃ found, c.target? place value = some found ∧
        s'.nodeOf? found.path = some t) := by
  refine follow_meets hc hplace haddressable hs.documents_eq hvalue ?_ ?_ ?_
  · intro e he _ hnone
    have hnowhere : ∀ found, ¬ c.Leads place found := by
      rintro found ⟨other, hother, hfound⟩
      rw [hvalue] at hother
      cases hother
      rw [hnone] at hfound
      cases hfound
    refine hplace.blames (fun hshaped => ?_) (fun _ hendless => ?_) he
    · obtain ⟨⟨found, hfound⟩, -⟩ := (Corpus.shaped_iff_of_reference hvalue).1 hshaped
      exact hnowhere found ⟨value, hvalue, hfound⟩
    · obtain ⟨found, hleads⟩ := hendless place Relation.ReflTransGen.refl
      exact hnowhere found hleads
  · intro found hops hleads hfound hcycle
    refine hplace.blames (fun hshaped => ?_) nofun rfl
    have hgrounded := ((Corpus.shaped_iff_of_reference hvalue).1 hshaped).2
    exact hgrounded.not_cyclic (transGen_of_cycle? hplace hfound hleads htrail hcycle)
  · intro found _ names htarget hleads hfound hreach _ _
    have hready : c.Ready { s with chain := s.chain ++ [place.path] } found :=
      ⟨hreach, trail_append hplace hleads htrail, Or.inr hfound⟩
    refine (hrec pending found names _ (hs.setChain _) hready).mono ?_ ?_
    · rintro t s' ⟨hs', ht⟩
      exact ⟨advances_whileFollowing hs', found, htarget, ht⟩
    · intro e _ he
      exact he.of_step (hplace.step_leads hleads)

/-- A place whose path stands for no node is not pending. -/
theorem not_mem_pending (hs : s.Sound c pending) {path : Reference} (hfree : s.nodeOf? path = none) :
    path ∉ pending := by
  intro hpending
  obtain ⟨t, ht⟩ := hs.pending_bound _ hpending
  rw [hfree] at ht
  cases ht

/-- A reference whose target stands for a node leads to a schema in the end. -/
theorem grounded_of_bound (hs : s.Sound c pending) {found : Place} (hleads : c.Leads place found)
    (hfound : c.Located found) (haddressable : found.path.IsAddressable) {t : NodeId}
    (ht : s.nodeOf? found.path = some t) : c.Grounded place := by
  obtain ⟨other, hother, hgrounded, -⟩ := hs.described _ t haddressable ht
  rw [Corpus.located_iff.1 hfound] at hother
  cases hother
  exact .hop hleads hgrounded

/-- Two nodes that a reference stands for are the same, if its path is not pending. -/
theorem unique_of_reference (hs : s.Sound c pending) (hplace : c.Located place)
    (haddressable : place.path.IsAddressable) (hpending : place.path ∉ pending) {value : Json}
    (hvalue : place.fragment.get? "$ref" = some value) {t other : NodeId}
    (ht : c.Describes s place t) (hother : s.nodeOf? place.path = some other) : other = t := by
  obtain ⟨same, hsame, -, hmem | hdescribes⟩ := hs.described _ other haddressable hother
  · exact absurd hmem hpending
  · rw [Corpus.located_iff.1 hplace] at hsame
    cases hsame
    obtain ⟨found, htarget, hfound⟩ := (Corpus.describes_iff_of_reference hvalue).1 ht
    obtain ⟨found', htarget', hfound'⟩ := (Corpus.describes_iff_of_reference hvalue).1 hdescribes
    rw [htarget] at htarget'
    cases htarget'
    rw [hfound] at hfound'
    exact (Option.some.inj hfound').symm

/-! ## Places -/

/-- What holds of a fragment's node before the path is bound to it: it is what the fragment calls for,
and the path stands for no other. -/
def FragmentNode (c : Corpus) (place : Place) (t : NodeId) (s : Progress MemoryStore) : Prop :=
  c.Grounded place ∧ c.Describes s place t ∧
    ∀ other, s.nodeOf? place.path = some other → other = t

/-- The node of a reference. -/
theorem followFragment_builds (hc : c.Consistent) (hrec : SoundConverter c recur)
    (hplace : c.Located place) (haddressable : place.path.IsAddressable) {value : Json}
    (hvalue : place.fragment.get? "$ref" = some value) (hs : s.Sound c pending)
    (hfree : s.nodeOf? place.path = none) (htrail : c.Trail s.chain place) (hints : Names) :
    Builds c pending [] place.path (follow recur place value hints) s (FragmentNode c place) := by
  refine (follow_builds hc hrec hplace haddressable hvalue hs htrail hints).imp ?_
  rintro t s' ⟨hs', found, htarget, ht⟩
  obtain ⟨hfound, hreach⟩ := hplace.target hc haddressable htarget
  have hgrounded := grounded_of_bound hs'.sound ⟨value, hvalue, htarget⟩ hfound hreach ht
  have hdescribes : c.Describes s' place t :=
    (Corpus.describes_iff_of_reference hvalue).2 ⟨found, htarget, ht⟩
  exact ⟨hs', hgrounded, hdescribes, fun other hother => unique_of_reference hs'.sound hplace
    haddressable (not_mem_pending hs hfree) hvalue hdescribes hother⟩

/-- The node of an enum. -/
theorem enumFragment_builds (hplace : c.Located place) {cases : Json}
    (href : place.fragment.get? "$ref" = none) (hcases : place.fragment.get? "enum" = some cases)
    (hs : s.Sound c pending) (hfree : s.nodeOf? place.path = none) (attributes : Attributes) :
    Builds c pending [] place.path (convertEnum cases place.path attributes) s
      (FragmentNode c place) := by
  refine (convertEnum_meets [] hs cases place.path attributes).mono ?_ ?_
  · rintro t s' ⟨hs', hbound, hnode⟩
    refine ⟨hs', .schema href, (Corpus.describes_iff_of_enum href hcases).2 hnode, ?_⟩
    intro other hother
    rw [hbound, hfree] at hother
    cases hother
  · rintro e _ ⟨he, hlisted⟩
    refine hplace.blames (fun hshaped => hlisted ?_)
      (fun _ => Corpus.not_endless_of_no_reference href) he
    exact (Corpus.shaped_iff_of_enum href hcases).1 hshaped

/-- The node of the fragment at a place, the path of which stands for no node when the conversion
begins. -/
theorem convertFragment_builds (hc : c.Consistent) (hrec : SoundConverter c recur)
    (hplace : c.Located place) (haddressable : place.path.IsAddressable) (hs : s.Sound c pending)
    (hfree : s.nodeOf? place.path = none) (htrail : c.Trail s.chain place)
    (hchain : place.fragment.get? "$ref" = none → s.chain = []) (hints : Names) :
    Builds c pending [] place.path (convertFragment recur place hints) s (FragmentNode c place) := by
  rcases place.view with ⟨b, hb⟩ | ⟨value, hvalue⟩ | ⟨cases, href, hcases⟩ | hschema | ⟨hbool, hobj⟩
  · have href : place.fragment.get? "$ref" = none := by rw [hb]; rfl
    rw [convertFragment_of_bool recur hints hb]
    refine hs.intern [] rfl fun t s' hs' ht hbound => ⟨hs', .schema href, ?_, ?_⟩
    · exact (Corpus.describes_iff_of_bool hb).2 ht
    · intro other hother
      rw [hbound, hfree] at hother
      cases hother
  · rw [convertFragment_of_reference recur hints hvalue]
    exact followFragment_builds hc hrec hplace haddressable hvalue hs hfree htrail hints
  · rw [convertFragment_of_enum recur hints href hcases]
    exact enumFragment_builds hplace href hcases hs hfree _
  · rw [convertFragment_of_isSchema recur hints hschema]
    refine (convertSchema_builds hrec hplace hschema haddressable hs (hchain hschema.no_reference)
      hfree _).imp ?_
    rintro t s' ⟨hs', hpath, hdescribes⟩
    refine ⟨hs', .schema hschema.no_reference, hdescribes, fun other hother => ?_⟩
    rw [hpath] at hother
    exact (Option.some.inj hother).symm
  · rw [convertFragment_of_none recur hints hbool hobj]
    have href : place.fragment.get? "$ref" = none := by
      cases hvalue : place.fragment.get? "$ref" with
      | none => rfl
      | some value =>
        obtain ⟨members, hmembers⟩ := Json.exists_eq_obj_of_get? hvalue
        exact absurd hmembers (hobj members)
    exact Meets.throw (hplace.blames (Corpus.not_shaped_of_none hbool hobj)
      (fun _ => Corpus.not_endless_of_no_reference href) rfl)

/-- The node of the fragment at a place, to which its path is bound afterwards. -/
theorem convertPlace_builds (hc : c.Consistent) (hrec : SoundConverter c recur)
    (hplace : c.Located place) (haddressable : place.path.IsAddressable) (hs : s.Sound c pending)
    (hfree : s.nodeOf? place.path = none) (htrail : c.Trail s.chain place) (hints : Names) :
    Builds c pending [] place.path (convertPlace recur place hints) s
      (fun t s' => s'.nodeOf? place.path = some t) := by
  have hfragment : Builds c pending [] place.path
      (if place.fragment.has "$ref" then convertFragment recur place hints
        else withChain [] (convertFragment recur place hints)) s (FragmentNode c place) := by
    split
    · next hhas =>
      refine convertFragment_builds hc hrec hplace haddressable hs hfree htrail (fun hnone => ?_)
        hints
      rw [Json.has_eq_false_iff.2 hnone] at hhas
      cases hhas
    · have hempty : c.Trail [] place := fun path hpath => absurd hpath List.not_mem_nil
      refine Meets.withChain ((convertFragment_builds hc hrec hplace haddressable (hs.setChain [])
        hfree hempty (fun _ => rfl) hints).imp ?_)
      rintro t s' ⟨hs', hgrounded, hdescribes, hunique⟩
      refine ⟨advances_withChain hs', hgrounded, hdescribes.mono ?_, hunique⟩
      exact ⟨fun _ _ _ hn => hn, fun _ _ hn => hn⟩
  rw [convertPlace_eq]
  refine hfragment.seq fun t s₁ ⟨hs₁, hgrounded, hdescribes, hunique⟩ => ?_
  refine Meets.andThen (hs₁.sound.bindDescribed [] hplace hgrounded haddressable hdescribes hunique
    fun s₂ hs₂ ht => ?_)
  exact Meets.pure ⟨hs₁.trans hs₂, ht⟩

/-! ## Recursion -/

/-- The conversion at any budget keeps the invariant, and only fails for a reason that it meets.

**Proof sketch.** Induction on the budget.  A path that stands for a node has it already.  Any other
place is located; when the budget is used up, the failure says so, and else the conversion of the
fragment takes a smaller budget to the schemas that it meets. -/
theorem toType_sound (hc : c.Consistent) (limit budget : Nat) :
    SoundConverter c (toType limit budget) := by
  induction budget with
  | zero =>
    intro pending place hints s hs hready
    exact Meets.boundOr (fun _ hbound => ⟨hs.advances [], hbound⟩) fun _ =>
      Meets.throw ⟨rfl, Or.inl rfl⟩
  | succ budget ih =>
    intro pending place hints s hs hready
    refine Meets.boundOr (fun _ hbound => ⟨hs.advances [], hbound⟩) fun hbound => ?_
    have hplace := Progress.resolve_bound hready.located hbound
    exact convertPlace_builds hc ih hplace hready.addressable hs hbound hready.trail hints

end Conversion

end ShapeGraph
