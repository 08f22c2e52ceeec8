import ShapeGraph.Proofs.PartsInStep
import ShapeGraph.Proofs.Soundness

/-!
# Places in step

Where corresponding progresses differ in nothing that a conversion looks at, the conversions of one
place from the one and from the other stay in step, as long as those of the schemas that they meet do.

## Main definitions

* `Conversion.Coupling.Uniform` — every operation of a conversion keeps two progresses corresponding.

## Main results

* `Conversion.convertPlace_inStep` — the conversion of a place.
* `Conversion.toType_inStep` — with any budget.
* `Conversion.convertEntries_inStep` — the conversion of several references.

## Design

Names only ever become attributes and other names.  So they may differ wherever attributes may; where
attributes may not, names that are the same stay the same.
-/

set_option autoImplicit false

namespace ShapeGraph

namespace Conversion

variable {σ α β : Type}

/-- Every operation of a conversion keeps two progresses corresponding.  If `same` holds, then only if
the names and attributes are the same on both sides. -/
structure Coupling.Uniform [DocumentSource σ] (k : Coupling σ) (same : Prop) : Prop where
  stable : ∀ {a a'}, (same → a = a') → k.Stable a a'
  loose_of_intersection : ∀ {s t members},
    s.graph.shape? t = some (.combination .intersection members) → k.loose s t
  fails_iff : ∀ {e s s'}, k.fails e s s' ↔ k.relates s s'
  bound : ∀ {s s'} path t, s.nodeOf? path = none → k.relates s s' →
    k.relates { s with bound := (path, t) :: s.bound } { s' with bound := (path, t) :: s'.bound }
  chain_eq : ∀ {s s'}, k.relates s s' → s'.chain = s.chain
  chained : ∀ {s s'} chain, k.relates s s' →
    k.relates { s with chain := chain } { s' with chain := chain }
  fetched : ∀ {s s'} address, k.relates s s' →
    (DocumentSource.fetch s'.documents address).1 = (DocumentSource.fetch s.documents address).1 ∧
      k.relates { s with documents := (DocumentSource.fetch s.documents address).2 }
        { s' with documents := (DocumentSource.fetch s'.documents address).2 }

section Places

variable [DocumentSource σ] {k : Coupling σ} {same : Prop} (uniform : k.Uniform same)

include uniform

theorem bindAny_inStep (path : Reference) (t : NodeId) : InStep k (bind path t) (bind path t) :=
  bind_inStep (fun hs => (uniform.stable fun _ => (rfl : Attributes.empty = _)).nodeOf?_eq hs path)
    (fun _ _ hs => uniform.fails_iff.2 hs) fun hfree hs => uniform.bound path t hfree hs

theorem ofResult_inStep (result : Except Failure α) :
    InStep k (ofResult result) (ofResult result) :=
  .ofResult fun _ _ _ _ hs => uniform.fails_iff.2 hs

/-- Other references are followed for a while. -/
theorem onChain_inStep {enter : List Reference → List Reference}
    {leave : List Reference → List Reference → List Reference} {x y : Conversion σ α}
    (h : InStep k x y) : InStep k (onChain enter leave x) (onChain enter leave y) := by
  intro s s' hs
  have hchain := uniform.chain_eq hs
  refine Meets.onChain ((h (uniform.chained (enter s.chain) hs)).mono ?_ ?_)
  · rintro a t ⟨t', hy, ht⟩
    refine ⟨{ t' with chain := leave s'.chain t'.chain }, ?_, ?_⟩
    · unfold onChain
      rw [hchain, hy]
    · rw [hchain, uniform.chain_eq ht]
      exact uniform.chained _ ht
  · rintro e t (hcut | ⟨t', hy, ht⟩)
    · exact Or.inl hcut
    · have ht' := uniform.fails_iff.1 ht
      refine Or.inr ⟨{ t' with chain := leave s'.chain t'.chain }, ?_, uniform.fails_iff.2 ?_⟩
      · unfold onChain
        rw [hchain, hy]
      · rw [hchain, uniform.chain_eq ht']
        exact uniform.chained _ ht'

/-- A path that stands for a node on one side stands for it on the other, and then nothing is
converted. -/
theorem boundOr_lockstep {path : Reference} {x y : Conversion σ NodeId} {s s' : Progress σ}
    (hs : k.relates s s')
    (h : s.nodeOf? path = none → Lockstep k x y s s' fun _ => k.relates) :
    Lockstep k
      (do
        match ← bound? path with
        | some t => return t
        | none => x)
      (do
        match ← bound? path with
        | some t => return t
        | none => y) s s' fun _ => k.relates := by
  have heq := (uniform.stable fun _ => (rfl : Attributes.empty = _)).nodeOf?_eq hs path
  refine Lockstep.andThen (Lockstep.bound? heq ?_)
  cases hpath : s.nodeOf? path with
  | some t => exact Lockstep.pure hs
  | none => exact h hpath

/-! ## References -/

omit uniform in
/-- A document is fetched, whether it is then given or not. -/
theorem fetch_eq (address : String) (s : Progress σ) :
    fetch address s = ofResult (DocumentSource.fetch s.documents address).1
      { s with documents := (DocumentSource.fetch s.documents address).2 } :=
  rfl

theorem fetch_inStep (address : String) : InStep k (fetch address) (fetch address) := by
  intro s s' hs
  obtain ⟨hresult, hfetched⟩ := uniform.fetched address hs
  unfold Lockstep Meets
  rw [fetch_eq, fetch_eq, hresult]
  exact ofResult_inStep uniform _ hfetched

theorem locate_inStep (place : Place) (target : Reference) :
    InStep k (locate place target) (locate place target) := by
  unfold locate
  split
  · exact ofResult_inStep uniform _
  · exact (fetch_inStep uniform _).andThen fun document => ofResult_inStep uniform _

variable {recur recur' : Converter σ}
  (hrec : ∀ place names names', (same → names = names') →
    InStep k (recur place names) (recur' place names'))

include hrec

theorem followTo_inStep (path : Reference) (target : Place) {names names' : Names}
    (hnames : same → names = names') :
    InStep k (followTo recur path target names) (followTo recur' path target names') := by
  intro s s' hs
  unfold followTo
  refine Lockstep.get ?_
  dsimp only
  rw [uniform.chain_eq hs]
  cases cycle? s.chain path target.path with
  | some hops => exact Lockstep.throw (uniform.fails_iff.2 hs)
  | none => exact onChain_inStep uniform (hrec target names names' hnames) hs

/-- The names handed to the target of a reference are the same if those for the reference are. -/
theorem follow_inStep (place : Place) (value : Json) {names names' : Names}
    (hnames : same → names = names') :
    InStep k (follow recur place value names) (follow recur' place value names') := by
  unfold follow Reference.ofValue
  cases value.text? with
  | none => exact fun s s' hs => Lockstep.andThen (Lockstep.throw (uniform.fails_iff.2 hs))
  | some text =>
    obtain ⟨found, hfound⟩ := exists_targetHints place.path.address text names
    obtain ⟨found', hfound'⟩ := exists_targetHints place.path.address text names'
    have hsame : same → found = found' := by
      intro h
      rw [hnames h, hfound'] at hfound
      exact (Except.ok.inj hfound).symm
    intro s s' hs
    refine Lockstep.andThen (Lockstep.pure ?_)
    rw [hfound, hfound']
    refine Meets.andThen (Meets.pure ?_)
    exact ((locate_inStep uniform place _).andThen fun target =>
      followTo_inStep uniform hrec place.path target hsame) hs

/-! ## Kinds of fragments -/

theorem convertFragment_inStep (hremembers : Remembers recur) (place : Place)
    {names names' : Names} (hnames : same → names = names') :
    InStep k (convertFragment recur place names) (convertFragment recur' place names') := by
  have hattributes : same → Attributes.ofSchema place.fragment place.path names =
      Attributes.ofSchema place.fragment place.path names' := fun h => by rw [hnames h]
  have hstable := uniform.stable hattributes
  rcases place.view with ⟨b, hb⟩ | ⟨value, hvalue⟩ | ⟨cases, href, hcases⟩ | hschema | ⟨hbool, hobj⟩
  · rw [convertFragment_of_bool recur names hb, convertFragment_of_bool recur' names' hb]
    exact hstable.intern_inStep rfl
  · rw [convertFragment_of_reference recur names hvalue,
      convertFragment_of_reference recur' names' hvalue]
    exact follow_inStep uniform hrec place value hnames
  · rw [convertFragment_of_enum recur names href hcases,
      convertFragment_of_enum recur' names' href hcases]
    exact convertEnum_inStep hstable cases place.path
  · rw [convertFragment_of_isSchema recur names hschema,
      convertFragment_of_isSchema recur' names' hschema]
    refine convertSchema_inStep hstable ?_ hremembers uniform.loose_of_intersection
      fun t => bindAny_inStep uniform place.path t
    intro child given given' hands s s' hs _
    exact hrec child given given' (fun h => hands.eq (congrArg Attributes.names (hattributes h))) hs
  · rw [convertFragment_of_none recur names hbool hobj,
      convertFragment_of_none recur' names' hbool hobj]
    exact .throw fun _ _ hs => uniform.fails_iff.2 hs

/-- The conversions of a place stay in step. -/
theorem convertPlace_inStep (hremembers : Remembers recur) (place : Place) {names names' : Names}
    (hnames : same → names = names') :
    InStep k (convertPlace recur place names) (convertPlace recur' place names') := by
  have hfragment := convertFragment_inStep uniform hrec hremembers place hnames
  rw [convertPlace_eq, convertPlace_eq]
  refine InStep.andThen ?_ fun t => (bindAny_inStep uniform place.path t).andThen fun _ => .pure t
  split
  · exact hfragment
  · exact onChain_inStep uniform hfragment

omit hrec

/-! ## Recursion and runs -/

/-- The conversions of a place with one budget stay in step.

**Proof sketch.** Induction on the budget.  Whether the path stands for a node is the same on both sides; if
it does not, the two conversions of the place stay in step because those of the schemas that they meet
do. -/
theorem toType_inStep (limit budget : Nat) (place : Place) {names names' : Names}
    (hnames : same → names = names') :
    InStep k (toType limit budget place names) (toType limit budget place names') := by
  induction budget generalizing place names names' with
  | zero =>
    exact fun s s' hs =>
      boundOr_lockstep uniform hs fun _ => Lockstep.throw (uniform.fails_iff.2 hs)
  | succ budget ih =>
    have hremembers := toType_remembers (σ := σ) limit budget
    exact fun s s' hs => boundOr_lockstep uniform hs fun _ =>
      convertPlace_inStep uniform (fun child _ _ hgiven => ih child hgiven) hremembers place hnames hs

theorem topLevelPlace_inStep (root : Json) (rootAddress : String) (reference : Reference) :
    InStep k (topLevelPlace root rootAddress reference)
      (topLevelPlace root rootAddress reference) := by
  unfold topLevelPlace
  split
  · exact InStep.andThen (.pure root) fun document => ofResult_inStep uniform _
  · exact (fetch_inStep uniform _).andThen fun document => ofResult_inStep uniform _

/-- The conversions of several references stay in step, if naming a node does not break it. -/
theorem convertEntries_inStep
    (hnamed : ∀ {s s'} name t, k.relates s s' →
      k.relates { s with graph := s.graph.addTopLevel name t }
        { s' with graph := s'.graph.addTopLevel name t })
    (limit : Option Nat) (extent : Extent) (root : Json) (rootAddress : String)
    (entries : List (String × Reference)) :
    InStep k (entries.forM fun e => convertTopLevel limit extent root rootAddress e.1 e.2)
      (entries.forM fun e => convertTopLevel limit extent root rootAddress e.1 e.2) := by
  induction entries with
  | nil => exact .pure ()
  | cons entry rest ih =>
    unfold List.forM convertTopLevel
    refine InStep.andThen ?_ fun _ => ih
    refine (topLevelPlace_inStep uniform root rootAddress entry.2).andThen fun place => ?_
    refine (toType_inStep uniform _ _ place fun _ => rfl).andThen fun t => ?_
    exact fun s s' hs => Lockstep.onGraph rfl (hnamed entry.1 t hs)

end Places

end Conversion

end ShapeGraph
