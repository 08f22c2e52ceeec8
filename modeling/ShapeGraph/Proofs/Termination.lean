import ShapeGraph.Proofs.Finiteness
import ShapeGraph.Proofs.Frames

/-!
# Conversions come to an end

However documents refer to themselves and to each other, a conversion nests schemas only so deep: some
budget is never used up.  Between two schemas that are no references, the chain of references being
followed has no path twice; and each schema that is no reference binds a path that has not been bound
before.  The paths are finitely many.

## Main definitions

* `Progress.rank` — a bound for how much deeper a conversion can go.
* `Realm.Serves` — a source of which all documents are known beforehand.
* `Progress.Follows` — one progress comes after another.
* `Conversion.Ends` — a conversion does not go too deep.
* `Terminates` — a conversion of inner schemas that does not go too deep if the rank is small.

## Main results

* `Conversion.toType_terminates` — a budget above the rank is not used up.
* `Conversion.convertAll_staysWithin` — with enough levels left, no run over such a source goes too deep.
* `Conversion.convertAll_terminates` — no limit above some bound is ever exceeded.

## Design

Nothing is assumed about the documents and the references: the store may even have another document at
the address of the root, and references may contain elements that lead nowhere.  A source may keep what
it has fetched, as long as no other documents come of it.
-/

set_option autoImplicit false

namespace ShapeGraph

open Conversion

/-- Sources that can be told by `serves` have no documents but those of the realm, and fetching leads
to such a source again. -/
structure Realm.Serves {σ : Type} [DocumentSource σ] (r : Realm) (serves : σ → Prop) : Prop where
  keeps : ∀ {d} address, serves d → serves (DocumentSource.fetch d address).2
  found : ∀ {d address document}, serves d → (DocumentSource.fetch d address).1 = .ok document →
    address ∈ r.addresses ∧ document ∈ r.documents
  allows : ∀ {d address e}, serves d → (DocumentSource.fetch d address).1 = .error e →
    e.isDepthFault = false

namespace Progress

variable {σ : Type} {serves : σ → Prop} {s s' s'' : Progress σ}

/-! ## The order of progress -/

/-- One progress comes after another: bindings are kept, the source has no other documents, and the
references that are being followed are the same. -/
structure Follows (serves : σ → Prop) (s s' : Progress σ) : Prop where
  served : serves s.documents → serves s'.documents
  chain_eq : s'.chain = s.chain
  bound : ∀ path t, s.nodeOf? path = some t → s'.nodeOf? path = some t

theorem Follows.refl (s : Progress σ) : s.Follows serves s := ⟨id, rfl, fun _ _ h => h⟩

theorem Follows.trans (h : s.Follows serves s') (h' : s'.Follows serves s'') :
    s.Follows serves s'' :=
  ⟨h'.served ∘ h.served, h'.chain_eq.trans h.chain_eq,
    fun path t ht => h'.bound path t (h.bound path t ht)⟩

/-- After a conversion with other references being followed, those from before are followed again. -/
theorem Follows.withChain {chain : List Reference}
    (h : Follows serves { s with chain := chain } s') :
    s.Follows serves { s' with chain := s.chain } :=
  ⟨h.served, rfl, h.bound⟩

/-- After a conversion while one more reference is being followed, that one is dropped. -/
theorem Follows.whileFollowing {path : Reference}
    (h : Follows serves { s with chain := s.chain ++ [path] } s') :
    s.Follows serves { s' with chain := s'.chain.dropLast } :=
  ⟨h.served, (congrArg List.dropLast h.chain_eq).trans List.dropLast_concat, h.bound⟩

theorem Follows.bindPath (h : s.Follows serves s') {path : Reference}
    (hpath : s'.nodeOf? path = none) (t : NodeId) :
    s.Follows serves { s' with bound := (path, t) :: s'.bound } :=
  ⟨h.served, h.chain_eq, fun other n hn => bound_bind hpath t (h.bound other n hn)⟩

/-- Operations on the graph and new bindings keep what has been before. -/
theorem frame_follows (serves : σ → Prop) (s : Progress σ) :
    Frame (s.Follows serves ·) fun e => e.isDepthFault = false where
  setGraph _ _ h := ⟨h.served, h.chain_eq, h.bound⟩
  bindPath _ _ t h hpath := h.bindPath hpath t
  allows _ he := he

/-- They also keep it that a path is bound. -/
theorem frame_follows_bound (serves : σ → Prop) (s : Progress σ) (path : Reference) :
    Frame (fun s' => s.Follows serves s' ∧ ∃ t, s'.nodeOf? path = some t)
      fun e => e.isDepthFault = false where
  setGraph _ _ h := ⟨⟨h.1.served, h.1.chain_eq, h.1.bound⟩, h.2⟩
  bindPath _ _ t h hother := ⟨h.1.bindPath hother t, h.2.imp fun _ hn => bound_bind hother t hn⟩
  allows _ he := he

/-- Nothing has happened but that documents have been fetched. -/
def Fetched (serves : σ → Prop) (s s' : Progress σ) : Prop :=
  ∃ documents, serves documents ∧ s' = { s with documents := documents }

theorem Fetched.refl (h : serves s.documents) : s.Fetched serves s := ⟨s.documents, h, rfl⟩

theorem Fetched.follows (h : s.Fetched serves s') : s.Follows serves s' := by
  obtain ⟨documents, hserves, rfl⟩ := h
  exact ⟨fun _ => hserves, rfl, fun _ _ h => h⟩

/-! ## The rank -/

/-- How much deeper a conversion can go: for each path that is not bound yet, there may be a chain of
references without repetition, and the chain at hand may become longer. -/
def rank (paths : Finset Reference) (s : Progress σ) : Nat :=
  (paths.filter fun path => s.nodeOf? path = none).card * (paths.card + 1) +
    (paths.card - s.chain.length)

variable {paths : Finset Reference}

theorem rank_le (paths : Finset Reference) (s : Progress σ) :
    s.rank paths ≤ paths.card * (paths.card + 1) + paths.card :=
  Nat.add_le_add (Nat.mul_le_mul_right _ (Finset.card_filter_le _ _)) (Nat.sub_le _ _)

/-- Once one more path is bound, the rank is smaller, whatever the chain is. -/
theorem rank_lt_of_bound {path : Reference} (hpath : path ∈ paths) (hfree : s.nodeOf? path = none)
    (hkeeps : ∀ other t, s.nodeOf? other = some t → s'.nodeOf? other = some t)
    (hbound : ∃ t, s'.nodeOf? path = some t) : s'.rank paths < s.rank paths := by
  have hlt : (paths.filter fun other => s'.nodeOf? other = none).card <
      (paths.filter fun other => s.nodeOf? other = none).card := by
    refine Finset.card_lt_card ((Finset.ssubset_iff_of_subset fun other hother => ?_).2 ?_)
    · obtain ⟨hmem, hnone⟩ := Finset.mem_filter.1 hother
      refine Finset.mem_filter.2 ⟨hmem, ?_⟩
      cases hold : s.nodeOf? other with
      | none => rfl
      | some t =>
        rw [hkeeps other t hold] at hnone
        cases hnone
    · obtain ⟨t, ht⟩ := hbound
      refine ⟨path, Finset.mem_filter.2 ⟨hpath, hfree⟩, fun hmem => ?_⟩
      rw [(Finset.mem_filter.1 hmem).2] at ht
      cases ht
  have hmul := Nat.mul_le_mul_right (paths.card + 1) (Nat.succ_le_of_lt hlt)
  unfold rank
  rw [Nat.succ_mul] at hmul
  omega

/-- When one more reference is followed, the rank is smaller as long as no path comes twice. -/
theorem rank_lt_of_hop {path : Reference} (hnodup : (s.chain ++ [path]).Nodup)
    (hchain : ∀ p ∈ s.chain ++ [path], p ∈ paths) :
    rank paths { s with chain := s.chain ++ [path] } < s.rank paths := by
  have hlength : (s.chain ++ [path]).length ≤ paths.card := by
    rw [← List.toFinset_card_of_nodup hnodup]
    exact Finset.card_le_card fun p hp => hchain p (List.mem_toFinset.1 hp)
  rw [List.length_append, List.length_singleton] at hlength
  have hlt : paths.card - (s.chain ++ [path]).length < paths.card - s.chain.length := by
    rw [List.length_append, List.length_singleton]
    omega
  exact Nat.add_lt_add_left hlt _

end Progress

/-! ## Conversions of inner schemas -/

/-- The references being followed, together with the path at hand, have no path twice. -/
structure Realm.Fresh (r : Realm) (chain : List Reference) (path : Reference) : Prop where
  nodup : (chain ++ [path]).Nodup
  mem_paths : ∀ p ∈ chain, p ∈ r.paths

theorem Realm.Fresh.nil (r : Realm) (path : Reference) : r.Fresh [] path :=
  ⟨List.nodup_singleton path, fun _ hp => absurd hp List.not_mem_nil⟩

/-- A reference to a path that is not on the chain may be followed. -/
theorem Realm.Fresh.hop {r : Realm} {chain : List Reference} {path target : Reference}
    (h : r.Fresh chain path) (hpath : path ∈ r.paths)
    (htarget : target ∉ chain ++ [path]) : r.Fresh (chain ++ [path]) target := by
  refine ⟨List.nodup_append.2 ⟨h.nodup, List.nodup_singleton target, ?_⟩, fun p hp => ?_⟩
  · rintro p hp q hq rfl
    rw [List.mem_singleton.1 hq] at hp
    exact htarget hp
  · rcases List.mem_append.1 hp with hp | hp
    · exact h.mem_paths p hp
    · rw [List.mem_singleton.1 hp]
      exact hpath

namespace Conversion

open Progress

section Ends

variable {σ α : Type} {serves : σ → Prop} {x : Conversion σ α} {s : Progress σ}

/-- Run from `s`, the conversion does not go too deep, and loses nothing on its way. -/
def Ends (serves : σ → Prop) (x : Conversion σ α) (s : Progress σ) : Prop :=
  Meets x s (fun _ s' => s.Follows serves s')
    fun e s' => s.Follows serves s' ∧ e.isDepthFault = false

theorem Ends.throw {e : Failure} (he : e.isDepthFault = false) :
    Ends serves (MonadExcept.throw e : Conversion σ α) s :=
  Meets.throw ⟨Follows.refl s, he⟩

theorem Ends.withChain {chain : List Reference} (h : Ends serves x { s with chain := chain }) :
    Ends serves (Conversion.withChain chain x) s :=
  Meets.withChain (h.mono (fun _ _ hs => hs.withChain) fun _ _ hs => ⟨hs.1.withChain, hs.2⟩)

theorem Ends.whileFollowing {path : Reference}
    (h : Ends serves x { s with chain := s.chain ++ [path] }) :
    Ends serves (Conversion.whileFollowing path x) s :=
  Meets.whileFollowing (h.mono (fun _ _ hs => hs.whileFollowing)
    fun _ _ hs => ⟨hs.1.whileFollowing, hs.2⟩)

end Ends

end Conversion

variable {σ : Type}

/-- Where the rank is below the bound, the conversion does not go too deep. -/
def Terminates (r : Realm) (serves : σ → Prop) (bound : Nat) (recur : Converter σ) : Prop :=
  ∀ (place : Place) (hints : Names) (s : Progress σ), r.Fits 0 place → serves s.documents →
    r.Fresh s.chain place.path → s.rank r.paths < bound →
      Conversion.Ends serves (recur place hints) s

namespace Conversion

open Progress

variable [DocumentSource σ] {r : Realm} {serves : σ → Prop} {bound : Nat} {recur : Converter σ}
  {place : Place} {s : Progress σ}

/-! ## References -/

section References

variable (source : r.Serves serves)

include source

/-- A document that is fetched is one of those of the realm. -/
theorem fetch_fits (hs : serves s.documents) (address : String) :
    Meets (fetch address) s
      (fun document s' => s.Fetched serves s' ∧ address ∈ r.addresses ∧ document ∈ r.documents)
      (fun e s' => s.Fetched serves s' ∧ e.isDepthFault = false) := by
  have hkeeps := source.keeps address hs
  exact Meets.fetchFrom
    (fun document hdocument => ⟨⟨_, hkeeps, rfl⟩, source.found hs hdocument⟩)
    fun e he => ⟨⟨_, hkeeps, rfl⟩, source.allows hs he⟩

/-- The target of a reference fits, if it is found. -/
theorem locate_fits (hs : serves s.documents) (hplace : r.Fits 0 place) {text : String}
    (htext : place.fragment.get? "$ref" = some (.str text)) :
    Meets (locate place (.parse place.path.address text)) s
      (fun found s' => s.Fetched serves s' ∧ r.Fits 0 found)
      (fun e s' => s.Fetched serves s' ∧ e.isDepthFault = false) := by
  have htarget := hplace.target_mem htext place.path.address
  unfold locate
  split
  · next hsame =>
    exact Meets.ofResult (fun found hfound => ⟨.refl hs, hplace.lookup hfound hsame htarget⟩)
      fun e he => ⟨.refl hs, (Place.lookup_error he).1⟩
  · refine (fetch_fits source hs _).seq fun document s₁ h => ?_
    obtain ⟨hfetched, haddress, hmem⟩ := h
    exact Meets.ofResult (fun found hfound =>
      ⟨hfetched, (Realm.Fits.ofDocument haddress hmem).lookup hfound rfl htarget⟩)
      fun e he => ⟨hfetched, (Place.lookup_error he).1⟩

end References

/-- Names are never refused because schemas are nested too deep. -/
theorem targetHints_error {target : Reference} {hints : Names} {e : Failure}
    (h : targetHints target hints = .error e) : e.isDepthFault = false := by
  unfold targetHints at h
  split at h
  · rcases of_bind_eq_error h with hhint | ⟨name?, -, h⟩
    · rw [Reference.hint_error hhint]
      rfl
    · cases name? <;> cases h
  · cases h

/-- Where there is no cycle, the target is not on the chain. -/
theorem not_mem_of_cycle?_eq_none {chain : List Reference} {path target : Reference}
    (h : cycle? chain path target = none) : target ∉ chain ++ [path] := by
  unfold cycle? at h
  split at h
  · cases h
  · next hne =>
    rw [Option.map_eq_none_iff, List.findIdx?_eq_none_iff] at h
    intro hmem
    rcases List.mem_append.1 hmem with hmem | hmem
    · have hfalse := h target hmem
      rw [decide_eq_false_iff_not] at hfalse
      exact hfalse rfl
    · exact hne (List.mem_singleton.1 hmem)

omit [DocumentSource σ] in
/-- Following a reference goes on to a smaller rank, or meets a cycle. -/
theorem followTo_terminates (hrec : Terminates r serves bound recur)
    (hplace : r.Fits 0 place) {found : Place} (hfound : r.Fits 0 found)
    (hs : serves s.documents) (hfresh : r.Fresh s.chain place.path)
    (hrank : s.rank r.paths ≤ bound) (hints : Names) :
    Ends serves (followTo recur place.path found hints) s := by
  unfold followTo
  refine Meets.andThen (Meets.get ?_)
  dsimp only
  cases hcycle : cycle? s.chain place.path found.path with
  | some hops => exact Ends.throw rfl
  | none =>
    have hfresh' := hfresh.hop hplace.mem_paths (not_mem_of_cycle?_eq_none hcycle)
    have hlt := Nat.lt_of_lt_of_le (rank_lt_of_hop hfresh.nodup hfresh'.mem_paths) hrank
    exact (hrec found hints { s with chain := s.chain ++ [place.path] } hfound hs hfresh'
      hlt).whileFollowing

/-- Following a reference does not go too deep. -/
theorem follow_terminates (source : r.Serves serves) (hrec : Terminates r serves bound recur)
    (hplace : r.Fits 0 place) {value : Json}
    (hvalue : place.fragment.get? "$ref" = some value) (hs : serves s.documents)
    (hfresh : r.Fresh s.chain place.path)
    (hrank : s.rank r.paths ≤ bound) (hints : Names) :
    Ends serves (follow recur place value hints) s := by
  unfold follow
  refine Meets.andThen (Meets.ofResult (fun target htarget => ?_) fun e he => ?_)
  · obtain ⟨text, rfl, rfl⟩ : ∃ text, value = .str text ∧
        target = .parse place.path.address text := by
      unfold Reference.ofValue at htarget
      cases value <;> simp only [Json.text?] at htarget <;> cases htarget
      exact ⟨_, rfl, rfl⟩
    refine Meets.andThen (Meets.ofResult (fun names _ => ?_) fun e he => ⟨Follows.refl s, ?_⟩)
    · refine ((locate_fits source hs hplace hvalue).mono (fun _ _ h => h) ?_).seq ?_
      · exact fun e s₁ he => ⟨he.1.follows, he.2⟩
      · rintro found _ ⟨⟨documents, hdocuments, rfl⟩, hfound⟩
        -- Nothing but the source has changed, so the rank is the same.
        refine (followTo_terminates (s := { s with documents := documents }) hrec hplace hfound
          hdocuments hfresh hrank names).mono ?_ ?_
        · exact fun t s₂ h => ⟨fun _ => h.served hdocuments, h.chain_eq, h.bound⟩
        · exact fun e s₂ h => ⟨⟨fun _ => h.1.served hdocuments, h.1.chain_eq, h.1.bound⟩, h.2⟩
    · exact targetHints_error he
  · refine ⟨Follows.refl s, ?_⟩
    unfold Reference.ofValue at he
    split at he <;> cases he
    rfl

/-! ## Places -/

omit [DocumentSource σ] in
/-- A schema that is neither reference nor enum.  The schemas inside it are only converted after its
path has been bound. -/
theorem convertSchema_terminates (hrec : Terminates r serves bound recur)
    (hplace : r.Fits 0 place) (hs : serves s.documents) (hchain : s.chain = [])
    (hfree : s.nodeOf? place.path = none)
    (hrank : ∀ s', s.Follows serves s' → (∃ t, s'.nodeOf? place.path = some t) →
      s'.rank r.paths < bound) (attributes : Attributes) :
    Ends serves (convertSchema recur place attributes) s := by
  have hinner : ∀ child, place.Inner child → ∀ names, Preserves
      (fun s' => s.Follows serves s' ∧ ∃ t, s'.nodeOf? place.path = some t)
      (fun e => e.isDepthFault = false) (recur child names) := by
    rintro child hinner names s' ⟨hs', hbound⟩
    have hfresh : r.Fresh s'.chain child.path := by
      rw [hs'.chain_eq, hchain]
      exact Realm.Fresh.nil r child.path
    refine (hrec child names s' (hplace.inner hinner) (hs'.served hs) hfresh
      (hrank s' hs' hbound)).mono (fun t s'' h => ?_) fun e s'' h => ⟨?_, h.2⟩
    · exact ⟨hs'.trans h, hbound.imp fun n hn => h.bound _ _ hn⟩
    · exact ⟨hs'.trans h.1, hbound.imp fun n hn => h.1.bound _ _ hn⟩
  have hcustody := (frame_follows_bound serves s place.path).custody
  rw [convertSchema_eq]
  refine Meets.andThen (Meets.onGraph (Meets.andThen
    (Meets.bind (fun _ => ?_) fun other hother => ?_)))
  · -- From here on the path is bound, and all that follows keeps it bound.
    refine (((schemaMembers_preserves hcustody hinner attributes).andThen fun members =>
      (hcustody.setMembers trivial members).andThen fun _ =>
        (hcustody.addAttributes _ attributes).andThen fun _ => .pure _) _ ?_).mono
          (fun _ _ h => h.1) fun e _ h => ⟨h.1.1, h.2⟩
    refine ⟨⟨id, rfl, fun _ _ hn => bound_bind hfree _ hn⟩, s.graph.nodes.length, ?_⟩
    exact (nodeOf?_bind _ place.path place.path _).trans (if_pos rfl)
  · change s.nodeOf? place.path = some other at hother
    rw [hfree] at hother
    cases hother

/-- The fragment of a place, other than a reference. -/
theorem convertFragment_terminates (hrec : Terminates r serves bound recur)
    (hplace : r.Fits 0 place) (href : place.fragment.get? "$ref" = none)
    (hs : serves s.documents) (hchain : s.chain = []) (hfree : s.nodeOf? place.path = none)
    (hrank : ∀ s', s.Follows serves s' → (∃ t, s'.nodeOf? place.path = some t) →
      s'.rank r.paths < bound) (hints : Names) :
    Ends serves (convertFragment recur place hints) s := by
  have hcustody := (frame_follows serves s).custody
  rcases place.view with ⟨b, hb⟩ | ⟨value, hvalue⟩ | ⟨cases, -, hcases⟩ | hschema | ⟨hbool, hobj⟩
  · rw [convertFragment_of_bool recur hints hb]
    exact hcustody.intern rfl s (Follows.refl s)
  · rw [href] at hvalue
    cases hvalue
  · rw [convertFragment_of_enum recur hints href hcases]
    exact convertEnum_preserves hcustody cases place.path _ s (Follows.refl s)
  · rw [convertFragment_of_isSchema recur hints hschema]
    exact convertSchema_terminates hrec hplace hs hchain hfree hrank _
  · rw [convertFragment_of_none recur hints hbool hobj]
    exact Ends.throw rfl

/-- A place whose path stands for no node yet. -/
theorem convertPlace_terminates (source : r.Serves serves) (hrec : Terminates r serves bound recur)
    (hplace : r.Fits 0 place) (hs : serves s.documents)
    (hfresh : r.Fresh s.chain place.path) (hfree : s.nodeOf? place.path = none)
    (hrank : s.rank r.paths ≤ bound) (hints : Names) :
    Ends serves (convertPlace recur place hints) s := by
  have hfragment : Ends serves (if place.fragment.has "$ref" then convertFragment recur place hints
      else withChain [] (convertFragment recur place hints)) s := by
    split
    · next hhas =>
      obtain ⟨value, hvalue⟩ := Json.has_eq_true_iff.1 hhas
      rw [convertFragment_of_reference recur hints hvalue]
      exact follow_terminates source hrec hplace hvalue hs hfresh hrank hints
    · next hhas =>
      have href := Json.has_eq_false_iff.1 (eq_false_of_ne_true hhas)
      have hdecreases : ∀ s', Follows serves { s with chain := [] } s' →
          (∃ t, s'.nodeOf? place.path = some t) → s'.rank r.paths < bound := by
        intro s' hs' hbound
        exact Nat.lt_of_lt_of_le (rank_lt_of_bound hplace.mem_paths hfree hs'.bound hbound) hrank
      have hinner := convertFragment_terminates (s := { s with chain := [] }) hrec hplace href hs
        rfl hfree hdecreases hints
      exact hinner.withChain
  rw [convertPlace_eq]
  refine hfragment.seq fun t s₁ hs₁ => ?_
  exact (((frame_follows serves s).custody.bind place.path t).andThen fun _ => .pure t) s₁ hs₁

/-! ## Recursion -/

variable (source : r.Serves serves)

include source

/-- A budget above the rank is not used up.

**Proof sketch.** Induction on the budget.  Following a reference makes the chain longer, and the
conversion of any other schema binds its path before those inside it are converted; in both cases the
rank is smaller afterwards. -/
theorem toType_terminates (limit budget : Nat) :
    Terminates r serves budget (toType limit budget) := by
  induction budget with
  | zero => exact fun place hints s _ _ _ hrank => absurd hrank (Nat.not_lt_zero _)
  | succ budget ih =>
    intro place hints s hplace hs hfresh hrank
    refine Meets.boundOr (fun _ _ => Follows.refl s) fun hbound => ?_
    exact convertPlace_terminates source ih hplace hs hfresh hbound (Nat.le_of_lt_succ hrank) hints

/-! ## Runs -/

/-- The place that a named reference leads to fits. -/
theorem topLevelPlace_fits (hs : serves s.documents) {reference : Reference}
    (hreference : reference ∈ r.references) :
    Meets (topLevelPlace r.root r.rootAddress reference) s
      (fun place s' => s.Fetched serves s' ∧ r.Fits 0 place)
      (fun e _ => e.isDepthFault = false) := by
  have hlookup : ∀ {document : Json} {s' : Progress σ}, s.Fetched serves s' →
      reference.address ∈ r.addresses → document ∈ r.documents →
      Meets (ofResult ((Place.ofDocument reference.address document).lookup reference)) s'
        (fun place s' => s.Fetched serves s' ∧ r.Fits 0 place)
        (fun e _ => e.isDepthFault = false) := by
    intro document s' hfetched haddress hmem
    refine Meets.ofResult (fun place hplace => ⟨hfetched, ?_⟩) fun e he => (Place.lookup_error he).1
    exact (Realm.Fits.ofDocument haddress hmem).lookup hplace rfl
      fun e he => Realm.mem_alphabet_of_reference hreference he
  unfold topLevelPlace
  split
  · next hroot =>
    exact Meets.andThen (Meets.pure
      (hlookup (.refl hs) (hroot ▸ List.mem_cons_self) List.mem_cons_self))
  · refine ((fetch_fits source hs _).mono (fun _ _ h => h) fun _ _ he => he.2).seq ?_
    exact fun document s₁ h => hlookup h.1 h.2.1 h.2.2

/-- With enough levels left, the conversion of a named reference's target does not go too deep. -/
theorem convertTopLevel_terminates {limit : Option Nat} {extent : Extent}
    (hlevels : r.paths.card * (r.paths.card + 1) + r.paths.card < levelsLeft limit extent 0)
    {reference : Reference} (hreference : reference ∈ r.references) (hs : serves s.documents)
    (hchain : s.chain = []) (name : String) :
    Meets (convertTopLevel limit extent r.root r.rootAddress name reference) s
      (fun _ s' => s.Follows serves s') (fun e _ => e.isDepthFault = false) := by
  unfold convertTopLevel
  refine (topLevelPlace_fits source hs hreference).seq ?_
  rintro place _ ⟨⟨documents, hdocuments, rfl⟩, hplace⟩
  have hfresh : r.Fresh s.chain place.path := by
    rw [hchain]
    exact Realm.Fresh.nil r place.path
  have hrank := Nat.lt_of_le_of_lt (rank_le r.paths { s with documents := documents }) hlevels
  have hends : Ends serves (convertAt limit extent place (.inferred name) 0)
      { s with documents := documents } :=
    toType_terminates source _ _ place _ _ hplace hdocuments hfresh hrank
  refine (hends.mono (fun _ _ h => h) fun e _ h => h.2).seq fun t s₂ hs₂ => ?_
  exact Meets.onGraph ⟨fun _ => hs₂.served hdocuments, hs₂.chain_eq, hs₂.bound⟩

/-- With enough levels left at its start, a run does not go too deep.

**Proof sketch.** Induction on the references.  The rank can only become smaller from one to the
next, but it is enough that it never exceeds what it could be at the start. -/
theorem convertEntries_terminates {limit : Option Nat} {extent : Extent}
    (hlevels : r.paths.card * (r.paths.card + 1) + r.paths.card < levelsLeft limit extent 0)
    {entries : List (String × Reference)} (hentries : ∀ e ∈ entries, e.2 ∈ r.references)
    (hs : serves s.documents) (hchain : s.chain = []) :
    Meets (entries.forM fun e => convertTopLevel limit extent r.root r.rootAddress e.1 e.2) s
      (fun _ _ => True) (fun e _ => e.isDepthFault = false) := by
  induction entries generalizing s with
  | nil => exact Meets.pure trivial
  | cons entry rest ih =>
    obtain ⟨hentry, hrest⟩ := List.forall_mem_cons.1 hentries
    have hfirst := convertTopLevel_terminates source hlevels hentry hs hchain entry.1
    unfold List.forM
    exact hfirst.seq fun _ s₁ hs₁ => ih hrest (hs₁.served hs) (hs₁.chain_eq.trans hchain)

/-- With enough levels left, a run does not go too deep. -/
theorem convertAll_staysWithin (topLevels : SortedMap String Reference)
    (hreferences : r.references = topLevels.entries.map Prod.snd) {documents : σ}
    (hserves : serves documents) (hextent : DocumentSource.extent documents = r.furtherExtent)
    {limit : Option Nat} (hlimit : nestingBound r.extent ≤ levelsLeft limit r.extent 0) :
    Meets (convertAll limit r.root r.rootAddress topLevels) (Progress.start documents)
      (fun _ _ => True) (fun e _ => e.isDepthFault = false) := by
  have heq : extentOf documents r.root r.rootAddress (topLevels.entries.map Prod.snd) =
      r.extent := by
    unfold extentOf
    rw [hextent, ← hreferences]
    rfl
  unfold convertAll
  refine Meets.andThen (Meets.get ?_)
  dsimp only
  rw [show (Progress.start documents).documents = documents from rfl, heq]
  refine convertEntries_terminates source
    (Nat.lt_of_lt_of_le r.card_paths_lt_nestingBound hlimit) (fun e he => ?_) hserves rfl
  rw [hreferences]
  exact List.mem_map.2 ⟨e, he, rfl⟩

omit source

/-- A store has no documents but its own. -/
theorem serves_store (c : Corpus) (references : List Reference) :
    (c.realm references).Serves (· = c.store) where
  keeps _ hd := hd
  found := by
    rintro _ address document rfl h
    exact Corpus.mem_of_find? (MemoryStore.fetch_eq_ok_iff.1 h)
  allows := by
    rintro _ address e rfl h
    obtain ⟨-, rfl⟩ := MemoryStore.fetch_eq_error h
    rfl

/-- With enough levels left, a run over a store does not go too deep. -/
theorem convertAll_meets_noDepthFault (c : Corpus) (topLevels : SortedMap String Reference)
    (limit : Option Nat) (hlimit : nestingBound (c.extent (topLevels.entries.map Prod.snd)) ≤
      levelsLeft limit (c.extent (topLevels.entries.map Prod.snd)) 0) :
    Meets (convertAll limit c.root c.rootAddress topLevels) (Progress.start c.store)
      (fun _ _ => True) (fun e _ => e.isDepthFault = false) :=
  convertAll_staysWithin (serves_store c _) topLevels rfl rfl rfl hlimit

/-- Whatever the documents and references are, no limit above some bound is ever exceeded, and neither
is the budget of a run without a limit. -/
theorem convertAll_terminates (c : Corpus) (topLevels : SortedMap String Reference) :
    (∃ bound, ∀ limit, bound ≤ limit → ∀ (level : Nat) (path : Reference)
      (s : Progress MemoryStore),
        convertAll (some limit) c.root c.rootAddress topLevels (Progress.start c.store) ≠
          .error (.depthExceeded level path) s) ∧
      ∀ (level : Nat) (path : Reference) (s : Progress MemoryStore),
        convertAll none c.root c.rootAddress topLevels (Progress.start c.store) ≠
          .error (.depthExceeded level path) s := by
  refine ⟨⟨nestingBound (c.extent (topLevels.entries.map Prod.snd)), ?_⟩, ?_⟩
  · intro limit hlimit level path s hrun
    have hmeets := convertAll_meets_noDepthFault c topLevels (some limit) (Nat.le_succ_of_le hlimit)
    cases hmeets.of_eq_error hrun
  · intro level path s hrun
    have hmeets := convertAll_meets_noDepthFault c topLevels none (Nat.le_refl _)
    cases hmeets.of_eq_error hrun

end Conversion

end ShapeGraph
