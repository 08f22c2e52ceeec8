import Mathlib.Data.List.Chain
import ShapeGraph.Proofs.Acceptance
import ShapeGraph.Proofs.PartsInStep

/-!
# Cycles of references

A cycle of references is reported just in case there is one.  The chain of references being followed
begins anew at each schema that is no reference, so what is reported leads from reference to reference
and back to its start; and a run of references that never ends comes back to a path on the chain before
anything else can happen.

## Main definitions

* `Corpus.LeadsTo` — the schema at one path is a reference to another path.
* `Corpus.RefCycle` — a run of references that ends where it has started.
* `Corpus.Knotted` — what is met from a path is all right but for runs of references that never end.
* `Conversion.Exact` — a failure reports no cycle but one that there is.

## Main results

* `Conversion.toType_exact` — the conversion of a place reports only cycles that there are.
* `Conversion.toType_endless` — a run of references that never ends gives no node.
* `Conversion.convertAll_reportsCycle` — a run without a limit that meets one reports a cycle.
* `Conversion.convertAll_cycle_exact` — both for a whole run.

## Design

That a reported cycle is one rests on the chain alone: its paths lead from one to the next, and the last
one to the place at hand.  That a cycle further on is reported rests on what a failure has to blame: a run
that fails otherwise has something else to blame than a run of references that never ends.
-/

set_option autoImplicit false

namespace ShapeGraph

namespace Corpus

variable {c : Corpus}

/-! ## Runs of references -/

/-- The schema at the first path is a reference, and it leads to the second one. -/
def LeadsTo (c : Corpus) (path next : Reference) : Prop :=
  ∃ place found, c.place? path = some place ∧ c.Leads place found ∧ found.path = next

/-- The paths lead one to the next, each by the reference that stands at it, and the last one is the
first one again. -/
structure RefCycle (c : Corpus) (hops : List Reference) : Prop where
  two_le_length : 2 ≤ hops.length
  closed : hops.head? = hops.getLast?
  references : ∀ path ∈ hops, ∃ place, c.place? path = some place ∧
    place.fragment.has "$ref" = true
  leads : hops.IsChain c.LeadsTo

/-- Where one path leads to another, a reference stands at it. -/
theorem LeadsTo.has_reference {path next : Reference} (h : c.LeadsTo path next) :
    ∃ place, c.place? path = some place ∧ place.fragment.has "$ref" = true := by
  obtain ⟨place, found, hplace, ⟨value, hvalue, -⟩, -⟩ := h
  exact ⟨place, hplace, Json.has_eq_true_iff.2 ⟨value, hvalue⟩⟩

/-- In a run of references, each path but the last one leads somewhere. -/
theorem exists_leadsTo_of_mem {front : List Reference} {last path : Reference}
    (hchain : (front ++ [last]).IsChain c.LeadsTo) (hpath : path ∈ front) :
    ∃ next, c.LeadsTo path next := by
  obtain ⟨before, after, rfl⟩ := List.append_of_mem hpath
  have hsplit : (before ++ path :: (after ++ [last])).IsChain c.LeadsTo := by simpa using hchain
  have hrest := hsplit.right_of_append
  cases after with
  | nil => exact ⟨last, (List.isChain_cons_cons.1 hrest).1⟩
  | cons next after => exact ⟨next, (List.isChain_cons_cons.1 hrest).1⟩

/-- A run of references goes on to where its last path leads. -/
theorem isChain_concat {front : List Reference} {path target : Reference}
    (hchain : (front ++ [path]).IsChain c.LeadsTo) (htarget : c.LeadsTo path target) :
    ((front ++ [path]) ++ [target]).IsChain c.LeadsTo := by
  refine hchain.append (List.isChain_singleton _) fun p hp q hq => ?_
  rw [List.getLast?_concat] at hp
  cases hp
  cases hq
  exact htarget

/-- A run of references from the target of its last one is a cycle. -/
theorem refCycle_of_closed {front : List Reference} {path target : Reference}
    (hchain : (front ++ [path]).IsChain c.LeadsTo) (htarget : c.LeadsTo path target)
    (hclosed : (front ++ [path]).head? = some target) : c.RefCycle (front ++ [path, target]) := by
  have hsplit : front ++ [path, target] = (front ++ [path]) ++ [target] := by simp
  have hleads : (front ++ [path, target]).IsChain c.LeadsTo := by
    rw [hsplit]
    exact isChain_concat hchain htarget
  have hhead : (front ++ [path, target]).head? = some target := by
    rw [hsplit, List.head?_append, hclosed]
    rfl
  refine ⟨?_, ?_, fun p hp => ?_, hleads⟩
  · rw [List.length_append]
    exact Nat.le_add_left 2 _
  · rw [hhead, hsplit, List.getLast?_concat]
  · have hmem : p ∈ front ++ [path] := by
      rw [hsplit, List.mem_append] at hp
      rcases hp with hp | hp
      · exact hp
      · obtain rfl := List.mem_singleton.1 hp
        exact List.mem_of_mem_head? hclosed
    rw [hsplit] at hleads
    obtain ⟨next, hnext⟩ := exists_leadsTo_of_mem hleads hmem
    exact hnext.has_reference

/-! ## What is met from a path -/

/-- Nothing is wrong with what is met from the path but runs of references that never end, and there is such
a run. -/
structure Knotted (c : Corpus) (path : Reference) : Prop where
  wellShaped_or : ∀ next, c.Reaches path next → c.WellShaped next ∨ c.EndlessAt next
  exists_endless : ∃ next, c.Reaches path next ∧ c.EndlessAt next

/-- All that is met on a run of references that never ends is on this run. -/
theorem EndlessAt.step (hc : c.Consistent) {path next : Reference} (h : c.EndlessAt path)
    (hpath : path.IsAddressable) (hstep : c.Step path next) :
    next.IsAddressable ∧ c.EndlessAt next := by
  refine ⟨hstep.isAddressable hc hpath, ?_⟩
  obtain ⟨place, hplace, hendless⟩ := h
  obtain ⟨other, hother, hnext⟩ := hstep
  rw [hplace] at hother
  cases hother
  rcases hnext with ⟨found, hleads, rfl⟩ | ⟨hschema, -⟩
  · obtain ⟨value, -, htarget⟩ := id hleads
    rw [← path_of_place? hplace] at hpath
    have hfound := ((located_of_place? hplace).target hc hpath htarget).1
    exact ⟨found, located_iff.1 hfound, hendless.next hleads⟩
  · exact absurd hendless (not_endless_of_no_reference hschema.no_reference)

theorem EndlessAt.reaches (hc : c.Consistent) {path next : Reference} (h : c.EndlessAt path)
    (hpath : path.IsAddressable) (hreaches : c.Reaches path next) : c.EndlessAt next := by
  have hnext : next.IsAddressable ∧ c.EndlessAt next := by
    induction hreaches with
    | refl => exact ⟨hpath, h⟩
    | tail _ hstep ih => exact ih.2.step hc ih.1 hstep
  exact hnext.2

theorem Endless.knotted (hc : c.Consistent) {place : Place} (h : c.Endless place)
    (hplace : c.Located place) (haddressable : place.path.IsAddressable) : c.Knotted place.path := by
  have hstart : c.EndlessAt place.path := ⟨place, located_iff.1 hplace, h⟩
  exact ⟨fun next hreaches => Or.inr (hstart.reaches hc haddressable hreaches), place.path,
    Relation.ReflTransGen.refl, hstart⟩

end Corpus

namespace Conversion

variable {c : Corpus} {place : Place} {s : Progress MemoryStore} {recur : Converter MemoryStore}

/-! ## What is reported is a cycle -/

/-- If the failure reports a cycle of references, then there is one. -/
def Exact (c : Corpus) (e : Failure) : Prop :=
  ∀ target hops, e = .unresolved target (.cycle hops) → c.RefCycle hops

theorem Exact.of_not_cycle {e : Failure} (h : e.isCycle = false) : Exact c e := by
  rintro target hops rfl
  cases h

/-- The failure reports a cycle of references that there is. -/
def ReportsCycle (c : Corpus) (e : Failure) : Prop :=
  ∃ target hops, e = .unresolved target (.cycle hops) ∧ c.RefCycle hops

theorem Exact.reportsCycle {e : Failure} (h : Exact c e) (hcycle : e.isCycle = true) :
    ReportsCycle c e := by
  unfold Failure.isCycle at hcycle
  split at hcycle
  · next target hops => exact ⟨target, hops, rfl, h target hops rfl⟩
  · cases hcycle

theorem head?_toList_append {front : String} {first : Char}
    (h : front.toList.head? = some first) (rest : String) :
    (front ++ rest).toList.head? = some first := by
  rw [String.toList_append, List.head?_append, h]
  rfl

/-- No obstacle but a cycle of references is worded like one. -/
theorem exists_hops_of_message {obstacle : Obstacle} {rest : String}
    (h : obstacle.message = "$ref cycle " ++ rest) : ∃ hops, obstacle = .cycle hops := by
  have hdollar : obstacle.message.toList.head? = some '$' := by
    rw [h]
    exact head?_toList_append rfl rest
  cases obstacle with
  | cycle hops => exact ⟨hops, rfl⟩
  | indexOutOfBounds i place =>
    have hfirst : (Obstacle.indexOutOfBounds i place).message.toList.head? = some 'i' :=
      head?_toList_append (head?_toList_append (head?_toList_append rfl _) _) _
    exact absurd (hdollar.symm.trans hfirst) (by decide)
  | keyNotFound key place =>
    have hfirst : (Obstacle.keyNotFound key place).message.toList.head? = some 'k' :=
      head?_toList_append (head?_toList_append (head?_toList_append rfl _) _) _
    exact absurd (hdollar.symm.trans hfirst) (by decide)
  | noContainer kind place =>
    have hfirst : (Obstacle.noContainer kind place).message.toList.head? = some 'c' :=
      head?_toList_append (head?_toList_append (head?_toList_append rfl _) _) _
    exact absurd (hdollar.symm.trans hfirst) (by decide)

/-- The words for the obstacle that a conversion fails with, if it is one that a reference meets. -/
def obstacleWords {σ α : Type} (x : Conversion σ α) (s : Progress σ) : Option String :=
  match x s with
  | .error (.unresolved _ obstacle) _ => some obstacle.message
  | _ => none

theorem exists_of_obstacleWords {σ α : Type} {x : Conversion σ α} {s : Progress σ} {words : String}
    (h : obstacleWords x s = some words) :
    ∃ target obstacle t, x s = .error (.unresolved target obstacle) t ∧ obstacle.message = words := by
  unfold obstacleWords at h
  split at h
  · next target obstacle t hrun => exact ⟨target, obstacle, t, hrun, Option.some.inj h⟩
  · cases h

/-- A place at which a conversion may be asked for: the references that are being followed lead to it,
one after another. -/
structure Approached (c : Corpus) (s : Progress MemoryStore) (place : Place) : Prop where
  documents_eq : s.documents = c.store
  addressable : place.path.IsAddressable
  located : (∃ t, s.nodeOf? place.path = some t) ∨ c.Located place
  chain : (s.chain ++ [place.path]).IsChain c.LeadsTo

/-- The conversion follows the same references afterwards as before, and if it reports a cycle, then
there is one. -/
def ExactConverter (c : Corpus) (recur : Converter MemoryStore) : Prop :=
  ∀ (place : Place) (hints : Names) (s : Progress MemoryStore), Approached c s place →
    Meets (recur place hints) s (fun _ s' => s'.documents = c.store ∧ s'.chain = s.chain)
      fun e _ => Exact c e

/-- The references that have been followed since the target was met lead back to it. -/
theorem refCycle_of_cycle? {chain hops : List Reference} {path target : Reference}
    (hchain : (chain ++ [path]).IsChain c.LeadsTo) (htarget : c.LeadsTo path target)
    (hcycle : cycle? chain path target = some hops) : c.RefCycle hops := by
  unfold cycle? at hcycle
  split at hcycle
  · next heq =>
    cases hcycle
    subst heq
    have hfront : ([] ++ [target]).IsChain c.LeadsTo := List.isChain_singleton _
    exact Corpus.refCycle_of_closed hfront htarget rfl
  · obtain ⟨i, hi, rfl⟩ := Option.map_eq_some_iff.1 hcycle
    obtain ⟨hlt, hstart, -⟩ := List.findIdx?_eq_some_iff_getElem.1 hi
    have hdrop : chain.drop i ++ [path] = (chain ++ [path]).drop i := by
      rw [List.drop_append_of_le_length (Nat.le_of_lt hlt)]
    refine Corpus.refCycle_of_closed ?_ htarget ?_
    · rw [hdrop]
      exact hchain.drop i
    · rw [← of_decide_eq_true hstart, List.head?_append, List.head?_drop,
        List.getElem?_eq_getElem hlt]
      rfl

/-- While the chain of references stays the same, operations on the graph report no cycle. -/
def keepsChain (c : Corpus) (chain : List Reference) : Coupling MemoryStore :=
  .single (fun s => s.documents = c.store ∧ s.chain = chain) (Exact c) fun _ _ => True

theorem keepsChain_stable (chain : List Reference) (a : Attributes) :
    (keepsChain c chain).Stable a a :=
  .single (fun _ _ _ hs => ⟨hs, fun _ => trivial⟩) (fun _ _ hs => hs) (fun _ _ _ hs => hs)
    (fun _ _ _ hs => hs) (fun _ _ _ _ => trivial) (fun _ _ _ _ _ hs => hs)
    fun _ he => Exact.of_not_cycle he

theorem keepsChain_bind (chain : List Reference) (path : Reference) (t : NodeId) :
    InStep (keepsChain c chain) (bind path t) (bind path t) :=
  bind_single (fun _ _ hs => hs) (Exact.of_not_cycle rfl)

section Places

variable (hc : c.Consistent) (hrec : ExactConverter c recur)

include hc hrec

/-- A reference is followed only if that does not lead back to the chain. -/
theorem follow_exact (h : Approached c s place) (hplace : c.Located place) {value : Json}
    (hvalue : place.fragment.get? "$ref" = some value) (hints : Names) :
    Meets (follow recur place value hints) s
      (fun _ s' => s'.documents = c.store ∧ s'.chain = s.chain) fun e _ => Exact c e := by
  have hstep : ∀ {found}, c.Leads place found → c.LeadsTo place.path found.path :=
    fun hleads => ⟨place, _, Corpus.located_iff.1 hplace, hleads, rfl⟩
  refine follow_meets hc hplace h.addressable h.documents_eq hvalue
    (fun e _ hcycle _ => Exact.of_not_cycle hcycle) ?_ ?_
  · rintro found hops hleads - hcycle target other heq
    cases heq
    exact refCycle_of_cycle? h.chain (hstep hleads) hcycle
  · intro found _ names _ hleads hfound hreach _ _
    have happroached : Approached c { s with chain := s.chain ++ [place.path] } found :=
      ⟨h.documents_eq, hreach, Or.inr hfound, Corpus.isChain_concat h.chain (hstep hleads)⟩
    refine (hrec found names _ happroached).imp fun _ s' ht => ⟨ht.1, ?_⟩
    exact (congrArg List.dropLast ht.2).trans List.dropLast_concat

omit hc in
/-- A fragment that is no reference is converted with no references being followed. -/
theorem convertFragment_exact (hremembers : Remembers recur) (hplace : c.Located place)
    (href : place.fragment.get? "$ref" = none) (hints : Names) :
    InStep (keepsChain c []) (convertFragment recur place hints)
      (convertFragment recur place hints) := by
  have hstable := keepsChain_stable (c := c) [] (Attributes.ofSchema place.fragment place.path hints)
  rcases place.view with ⟨b, hb⟩ | ⟨value, hvalue⟩ | ⟨cases, -, hcases⟩ | hschema | ⟨hbool, hobj⟩
  · rw [convertFragment_of_bool recur hints hb]
    exact hstable.intern_inStep rfl
  · rw [href] at hvalue
    cases hvalue
  · rw [convertFragment_of_enum recur hints href hcases]
    exact convertEnum_inStep hstable cases place.path
  · rw [convertFragment_of_isSchema recur hints hschema]
    refine convertSchema_inStep hstable ?_ hremembers (fun _ => trivial)
      fun t => keepsChain_bind [] place.path t
    rintro child given given' hands _ u ⟨rfl, hdocuments, hchain⟩ hchild
    obtain rfl := hands.eq rfl
    have happroached : Approached c u child := by
      refine ⟨hdocuments, hands.inner.isAddressable, hchild.imp_right fun hseats => hseats c hplace, ?_⟩
      rw [hchain]
      exact List.isChain_singleton _
    refine Meets.lockstep ((hrec child given u happroached).imp fun _ _ ht => ?_)
    exact ⟨ht.1, ht.2.trans hchain⟩
  · rw [convertFragment_of_none recur hints hbool hobj]
    exact hstable.throw rfl

theorem convertPlace_exact (hremembers : Remembers recur) (h : Approached c s place)
    (hplace : c.Located place) (hints : Names) :
    Meets (convertPlace recur place hints) s
      (fun _ s' => s'.documents = c.store ∧ s'.chain = s.chain) fun e _ => Exact c e := by
  rw [convertPlace_eq]
  refine Meets.seq ?_ fun t s₁ hs₁ =>
    ((keepsChain_bind s.chain place.path t).andThen fun _ => .pure t).meets hs₁
  split
  · next hhas =>
    obtain ⟨value, hvalue⟩ := Json.has_eq_true_iff.1 hhas
    rw [convertFragment_of_reference recur hints hvalue]
    exact follow_exact hc hrec h hplace hvalue hints
  · next hhas =>
    have href := Json.has_eq_false_iff.1 (eq_false_of_ne_true hhas)
    have hfragment := convertFragment_exact hrec hremembers hplace href hints
    have hmeets := hfragment.meets (s := { s with chain := [] }) ⟨h.documents_eq, rfl⟩
    exact Meets.withChain (hmeets.imp fun _ _ ht => ⟨ht.1, rfl⟩)

omit hrec

/-- The conversion of a place reports only cycles that there are.

**Proof sketch.** Induction on the budget.  Following a reference makes the chain longer by the path of
the reference, which leads to its target; every other schema starts with an empty chain. -/
theorem toType_exact (limit budget : Nat) : ExactConverter c (toType limit budget) := by
  induction budget with
  | zero =>
    intro place hints s h
    exact Meets.boundOr (fun _ _ => ⟨h.documents_eq, rfl⟩) fun _ =>
      Meets.throw (Exact.of_not_cycle rfl)
  | succ budget ih =>
    intro place hints s h
    refine Meets.boundOr (fun _ _ => ⟨h.documents_eq, rfl⟩) fun hbound => ?_
    have hplace := Progress.resolve_bound h.located hbound
    exact convertPlace_exact hc ih (toType_remembers limit budget) h hplace hints

end Places

/-! ## A run of references that never ends -/

section Endless

variable (hc : c.Consistent)

include hc

/-- The next reference of a run that never ends is followed, unless it leads back to the chain. -/
theorem follow_endless (hrec : ∀ found hints (s : Progress MemoryStore), s.documents = c.store →
      c.Located found → found.path.IsAddressable → c.Leads place found →
        (∀ next, Relation.ReflTransGen c.Leads place next → s.nodeOf? next.path = none) →
          Meets (recur found hints) s (fun _ _ => False)
            fun e _ => e.isDepthFault = true ∨ e.isCycle = true)
    (hs : s.documents = c.store) (hplace : c.Located place)
    (haddressable : place.path.IsAddressable)
    (hfree : ∀ next, Relation.ReflTransGen c.Leads place next → s.nodeOf? next.path = none)
    {found : Place} {value : Json} (hvalue : place.fragment.get? "$ref" = some value)
    (htarget : c.target? place value = some found) (hints : Names) :
    Meets (follow recur place value hints) s (fun _ _ => False)
      fun e _ => e.isDepthFault = true ∨ e.isCycle = true := by
  refine follow_meets hc hplace haddressable hs hvalue (fun e _ _ hnone => ?_)
    (fun _ _ _ _ _ => Or.inr rfl) fun other _ names _ hleads hother hreach _ _ => ?_
  · rw [hnone] at htarget
    cases htarget
  · exact hrec other names { s with chain := s.chain ++ [place.path] } hs hother hreach hleads hfree

/-- A run of references that never ends gives no node, as long as no path of it stands for one.

**Proof sketch.** Induction on the budget.  The target of each reference is again the start of a run
that never ends, no path of which stands for a node. -/
theorem toType_endless (limit budget : Nat) (hs : s.documents = c.store) (hplace : c.Located place)
    (haddressable : place.path.IsAddressable) (hendless : c.Endless place)
    (hfree : ∀ next, Relation.ReflTransGen c.Leads place next → s.nodeOf? next.path = none)
    (hints : Names) :
    Meets (toType limit budget place hints) s (fun _ _ => False)
      fun e _ => e.isDepthFault = true ∨ e.isCycle = true := by
  induction budget generalizing place s hints with
  | zero =>
    refine Meets.andThen (Meets.bound? ?_)
    rw [hfree place Relation.ReflTransGen.refl]
    exact Meets.throw (Or.inl rfl)
  | succ budget ih =>
    refine Meets.andThen (Meets.bound? ?_)
    rw [hfree place Relation.ReflTransGen.refl]
    dsimp only
    obtain ⟨found, value, hvalue, htarget⟩ := hendless place Relation.ReflTransGen.refl
    rw [convertPlace_eq, if_pos (Json.has_eq_true_iff.2 ⟨value, hvalue⟩),
      convertFragment_of_reference _ hints hvalue]
    refine (follow_endless hc ?_ hs hplace haddressable hfree hvalue htarget hints).seq
      fun _ _ h => h.elim
    intro next names s₁ hs₁ hnext hreach hleads hfree₁
    exact ih hs₁ hnext hreach (hendless.next hleads)
      (fun other hother => hfree₁ other (hother.head hleads)) names

end Endless

/-! ## Runs -/

section Runs

variable (hc : c.Consistent)

include hc

theorem convertTopLevel_exact (limit : Option Nat) (extent : Extent) (name : String)
    (reference : Reference) (hs : s.documents = c.store) (hchain : s.chain = []) :
    Meets (convertTopLevel limit extent c.root c.rootAddress name reference) s
      (fun _ s' => s'.documents = c.store ∧ s'.chain = []) fun e _ => Exact c e := by
  unfold convertTopLevel
  refine ((topLevelPlace_meets hs reference).mono (fun _ _ h => h)
    fun e _ he => Exact.of_not_cycle he.2.1).seq fun place s₁ ⟨hs₁, hentry⟩ => ?_
  subst hs₁
  obtain ⟨hplace, haddressable⟩ := Corpus.located_entry? hentry
  have happroached : Approached c s₁ place := by
    refine ⟨hs, haddressable, Or.inr hplace, ?_⟩
    rw [hchain]
    exact List.isChain_singleton _
  refine (toType_exact hc _ _ place _ s₁ happroached).seq fun t s₂ hs₂ => ?_
  exact Meets.onGraph ⟨hs₂.1, hs₂.2.trans hchain⟩

theorem convertEntries_exact (limit : Option Nat) (extent : Extent)
    (entries : List (String × Reference)) (hs : s.documents = c.store) (hchain : s.chain = []) :
    Meets (entries.forM fun e => convertTopLevel limit extent c.root c.rootAddress e.1 e.2) s
      (fun _ s' => s'.documents = c.store ∧ s'.chain = []) fun e _ => Exact c e :=
  Meets.forM (fun entry _ _ hs => convertTopLevel_exact hc limit extent entry.1 entry.2 hs.1 hs.2)
    ⟨hs, hchain⟩

/-- A run reports only cycles that there are. -/
theorem convertAll_exact (limit : Option Nat) (topLevels : SortedMap String Reference) :
    Meets (convertAll limit c.root c.rootAddress topLevels) (Progress.start c.store)
      (fun _ _ => True) fun e _ => Exact c e :=
  Meets.andThen (Meets.get ((convertEntries_exact hc limit _ topLevels.entries rfl rfl).imp
    fun _ _ _ => trivial))

/-- A named reference is not converted if there is a run of references that never ends among what is met from
its target. -/
theorem convertTopLevel_knotted (limit : Option Nat) (extent : Extent) (name : String)
    {reference : Reference} (hread : reference.IsReadable) (hs : s.Sound c []) (hchain : s.chain = [])
    (hentry : c.entry? reference = some place) (hknot : c.Knotted place.path) :
    Meets (convertTopLevel limit extent c.root c.rootAddress name reference) s (fun _ _ => False)
      fun e _ => e.isDepthFault = true ∨ e.isCycle = true := by
  refine (convertTopLevel_meets hc limit extent hs hchain name hread).mono ?_ ?_
  · rintro _ s' hs'
    obtain ⟨other, t, hother, ht, -⟩ := hs'.registered
    rw [hentry] at hother
    cases hother
    obtain ⟨next, hreaches, hendless⟩ := hknot.exists_endless
    exact hendless.not_wellShaped (hs'.sound.wellShaped_of_reaches hc
      (Corpus.located_entry? hentry).2 ⟨t, ht⟩ hreaches)
  · rintro e _ hrejects
    obtain ⟨-, hdepth | ⟨culprit, hreaches, hexplains⟩⟩ := hrejects.2 place hentry
    · exact Or.inl hdepth
    · have hendless := (hknot.wellShaped_or culprit hreaches).resolve_left hexplains.misshapen
      exact Or.inr (eq_true_of_ne_false fun hcycle => hexplains.ends hcycle hendless)

/-- A run comes to an end at such a reference, if all references before it are accepted. -/
theorem convertAll_knotted (limit : Option Nat) {topLevels : SortedMap String Reference}
    (hread : ∀ e ∈ topLevels.entries, e.2.IsReadable) {before after : List (String × Reference)}
    {entry : String × Reference} (hentries : topLevels.entries = before ++ entry :: after)
    (haccepts : ∀ e ∈ before, c.Accepts e.2) (hentry : c.entry? entry.2 = some place)
    (hknot : c.Knotted place.path) :
    Meets (convertAll limit c.root c.rootAddress topLevels) (Progress.start c.store)
      (fun _ _ => False) fun e _ => e.isDepthFault = true ∨ e.isCycle = true := by
  rw [hentries, List.forall_mem_append, List.forall_mem_cons] at hread
  obtain ⟨hbefore, hreadEntry, -⟩ := hread
  have hnodup : (before.map Prod.fst).Nodup := by
    have hnames := nodup_names topLevels
    rw [hentries, List.map_append] at hnames
    exact hnames.of_append_left
  refine Meets.andThen (Meets.get ?_)
  dsimp only
  generalize extentOf (Progress.start c.store).documents c.root c.rootAddress _ = extent
  rw [hentries, List.forM_eq_forM, List.forM_append, List.forM_cons]
  refine (((convertEntries_meets hc limit extent hnodup hbefore (Progress.Sound.start c) rfl).and
    (convertEntries_exact hc limit extent before rfl rfl)).mono (fun _ _ h => h) ?_).seq ?_
  · rintro e _ ⟨⟨rejected, hmem, hrejects⟩, -⟩
    cases hdepth : e.isDepthFault with
    | true => exact Or.inl rfl
    | false => exact absurd (haccepts rejected hmem) (hrejects.not_accepts hdepth)
  · rintro _ s ⟨⟨hs, -⟩, -, hchain⟩
    exact (convertTopLevel_knotted hc limit extent entry.1 hreadEntry hs hchain hentry hknot).seq
      fun _ _ h => h.elim

/-- Without a limit, it reports a cycle there. -/
theorem convertAll_reportsCycle {topLevels : SortedMap String Reference}
    (hread : ∀ e ∈ topLevels.entries, e.2.IsReadable) {before after : List (String × Reference)}
    {entry : String × Reference} (hentries : topLevels.entries = before ++ entry :: after)
    (haccepts : ∀ e ∈ before, c.Accepts e.2) (hentry : c.entry? entry.2 = some place)
    (hknot : c.Knotted place.path) :
    ∃ e s, convertAll none c.root c.rootAddress topLevels (Progress.start c.store) = .error e s ∧
      ReportsCycle c e := by
  have hmeets := (convertAll_knotted hc none hread hentries haccepts hentry hknot).and
    ((convertAll_exact hc none topLevels).and
      (convertAll_meets_noDepthFault c topLevels none (Nat.le_refl _)))
  cases hrun : convertAll none c.root c.rootAddress topLevels (Progress.start c.store) with
  | ok _ s => exact (hmeets.of_eq_ok hrun).1.elim
  | error e s =>
    obtain ⟨hcause, hexact, hshallow⟩ := hmeets.of_eq_error hrun
    refine ⟨e, s, rfl, hexact.reportsCycle (hcause.resolve_left ?_)⟩
    rw [hshallow]
    exact Bool.false_ne_true

/-- Cycles of references are reported exactly.

* Whatever the limit is, if a run fails with an obstacle that is worded like a cycle, then the words are
  those for paths that lead one to the next, each by a reference, and back to the first.
* A run without a limit fails in this way when it meets a named reference to a run of references that
  resolves at every step and never ends, if all named references before it are accepted.
* So it does when such a run of references is met further on, be it below schemas, if nothing else is wrong
  with what is met from the named reference.
* The conversion of any place at which such a run starts, whatever references are being followed to it, fails
  in this way or because schemas are nested too deep, if no path of the run stands for a node yet.  It always
  fails in this way if its budget is above the rank, as it is in a run without a limit. -/
theorem convertAll_cycle_exact (topLevels : SortedMap String Reference) :
    (∀ limit target obstacle rest s,
      convertAll limit c.root c.rootAddress topLevels (Progress.start c.store) =
        .error (.unresolved target obstacle) s → obstacle.message = "$ref cycle " ++ rest →
          ∃ hops, rest = " -> ".intercalate (hops.map Reference.render) ∧ c.RefCycle hops) ∧
    ((∀ e ∈ topLevels.entries, e.2.IsReadable) → ∀ before entry after place,
      topLevels.entries = before ++ entry :: after → (∀ e ∈ before, c.Accepts e.2) →
        c.entry? entry.2 = some place → c.Endless place →
        ∃ e s, convertAll none c.root c.rootAddress topLevels (Progress.start c.store) =
          .error e s ∧ ReportsCycle c e) ∧
    ((∀ e ∈ topLevels.entries, e.2.IsReadable) → ∀ before entry after place,
      topLevels.entries = before ++ entry :: after → (∀ e ∈ before, c.Accepts e.2) →
        c.entry? entry.2 = some place → c.Knotted place.path →
        ∃ e s, convertAll none c.root c.rootAddress topLevels (Progress.start c.store) =
          .error e s ∧ ReportsCycle c e) ∧
    ∀ limit budget place hints s, Approached c s place → c.Located place → c.Endless place →
      (∀ next, Relation.ReflTransGen c.Leads place next → s.nodeOf? next.path = none) →
        ∃ e s', toType limit budget place hints s = .error e s' ∧
          (e.isDepthFault = true ∨ ReportsCycle c e) ∧
          ∀ references, (c.realm references).Fits 0 place →
            (c.realm references).Fresh s.chain place.path →
              s.rank (c.realm references).paths < budget → ReportsCycle c e := by
  refine ⟨?_, ?_, ?_, ?_⟩
  · intro limit target obstacle rest s hrun hmessage
    obtain ⟨hops, rfl⟩ := exists_hops_of_message hmessage
    refine ⟨hops, ?_, (convertAll_exact hc limit topLevels).of_eq_error hrun target hops rfl⟩
    exact ((String.append_right_inj _).1 hmessage).symm
  · intro hread before entry after place hentries haccepts hentry hendless
    obtain ⟨hplace, haddressable⟩ := Corpus.located_entry? hentry
    exact convertAll_reportsCycle hc hread hentries haccepts hentry
      (hendless.knotted hc hplace haddressable)
  · intro hread before entry after place hentries haccepts hentry hknot
    exact convertAll_reportsCycle hc hread hentries haccepts hentry hknot
  · intro limit budget place hints s happroached hplace hendless hfree
    have hmeets := (toType_endless hc limit budget happroached.documents_eq hplace
      happroached.addressable hendless hfree hints).and
        (toType_exact hc limit budget place hints s happroached)
    cases hrun : toType limit budget place hints s with
    | ok t s' => exact (hmeets.of_eq_ok hrun).1.elim
    | error e s' =>
      obtain ⟨hcause, hexact⟩ := hmeets.of_eq_error hrun
      have hreports := hcause.imp_right hexact.reportsCycle
      refine ⟨e, s', rfl, hreports, fun references hfits hfresh hrank => hreports.resolve_left ?_⟩
      have hends := (toType_terminates (serves_store c references) limit budget place hints s hfits
        happroached.documents_eq hfresh hrank).of_eq_error hrun
      rw [hends.2]
      exact Bool.false_ne_true

end Runs

/-- Two definitions that refer to each other, and a root that refers to one of them. -/
def loopCorpus : Corpus where
  root := .obj [("$ref", .str "#/definitions/a"), ("definitions", .obj [
    ("a", .obj [("$ref", .str "#/definitions/b")]),
    ("b", .obj [("$ref", .str "#/definitions/a")])])]
  rootAddress := "loop.json"
  store := ⟨∅⟩

/-- The root of the loop. -/
def loopEntries : SortedMap String Reference := ⟨[("Loop", .root "loop.json")], by simp⟩

/-- The place of one of the two definitions. -/
def loopPlace (name other : String) : Place :=
  ⟨loopCorpus.root, .obj [("$ref", .str ("#/definitions/" ++ other))],
    ⟨"loop.json", [.root, .definition name]⟩⟩

theorem loopCorpus_consistent : loopCorpus.Consistent := nofun

/-- The references of the loop lead from one definition to the other and back. -/
theorem loopPlace_endless : loopCorpus.Endless (loopPlace "a" "b") := by
  have hab : loopCorpus.Leads (loopPlace "a" "b") (loopPlace "b" "a") := ⟨_, rfl, rfl⟩
  have hba : loopCorpus.Leads (loopPlace "b" "a") (loopPlace "a" "b") := ⟨_, rfl, rfl⟩
  exact Corpus.endless_of_cyclic ((Relation.TransGen.single hab).tail hba)

/-- A schema with a property that refers to itself. -/
def nestedCorpus : Corpus where
  root := .obj [("properties", .obj [("a", .obj [("$ref", .str "#/properties/a")])])]
  rootAddress := "nested.json"
  store := ⟨∅⟩

/-- The root of the schema. -/
def nestedEntries : SortedMap String Reference := ⟨[("Nested", .root "nested.json")], by simp⟩

/-- The place of the property, as it is met from the root or as it is met from itself. -/
def nestedPlace (steps : List PathElement) : Place :=
  ⟨nestedCorpus.root, .obj [("$ref", .str "#/properties/a")],
    ⟨"nested.json", .root :: steps ++ [.key "properties", .key "a"]⟩⟩

theorem nestedCorpus_consistent : nestedCorpus.Consistent := nofun

theorem nestedPlace_endless : nestedCorpus.Endless (nestedPlace [.object]) := by
  have hagain : nestedCorpus.Leads (nestedPlace []) (nestedPlace []) := ⟨_, rfl, rfl⟩
  have hfirst : nestedCorpus.Leads (nestedPlace [.object]) (nestedPlace []) := ⟨_, rfl, rfl⟩
  exact (Corpus.endless_of_cyclic (Relation.TransGen.single hagain)).of_leads hfirst

theorem nestedPlace_inner :
    (Place.ofDocument "nested.json" nestedCorpus.root).Inner (nestedPlace [.object]) := by
  have hinner : (Place.ofDocument "nested.json" nestedCorpus.root).Inner
      ⟨nestedCorpus.root, .obj [("$ref", .str "#/properties/a")],
        ((Reference.root "nested.json").push .object).pushKeys ["properties", "a"]⟩ :=
    .property List.mem_cons_self rfl List.mem_cons_self
  exact hinner

/-- From the root only the property is met. -/
theorem nestedCorpus_step {path : Reference}
    (h : nestedCorpus.Step (.root "nested.json") path) : path = (nestedPlace [.object]).path := by
  obtain ⟨place, hplace, hnext⟩ := h
  obtain rfl : Place.ofDocument "nested.json" nestedCorpus.root = place := Option.some.inj hplace
  rcases hnext with ⟨found, ⟨value, hvalue, -⟩, -⟩ | ⟨-, inner, hinner, rfl⟩
  · cases hvalue
  · cases hinner with
    | @branch combinator schemas i schema hcases hschema => cases combinator <;> cases hcases
    | property hobject hmembers hmem =>
      cases hmembers
      cases List.mem_singleton.1 hobject
      cases List.mem_singleton.1 hmem
      rfl
    | additional hobject hschema => cases hschema
    | items harray hschema _ => cases hschema
    | position harray hpositions hschema => cases hpositions

theorem nestedCorpus_wellShaped : nestedCorpus.WellShaped (.root "nested.json") := by
  have htypes : (Place.ofDocument "nested.json" nestedCorpus.root).fragment.declaredTypes = ["object"] :=
    rfl
  refine ⟨.ofDocument "nested.json" nestedCorpus.root, rfl,
    (Corpus.shaped_iff_of_isSchema ⟨⟨_, rfl⟩, rfl, rfl⟩).2 ?_⟩
  refine ⟨fun combinator _ h => ?_, nofun, fun name hname => ?_,
    fun _ => ⟨fun value h => ?_, fun _ => nofun, nofun⟩, fun harray => ?_⟩
  · cases combinator <;> cases h
  · rw [htypes, List.mem_singleton] at hname
    rw [hname]
    exact List.mem_cons_self
  · cases h
    exact ⟨_, rfl⟩
  · exact absurd harray (by decide)

/-- Nothing is wrong with the schema but its property. -/
theorem nestedCorpus_knotted : nestedCorpus.Knotted (.root "nested.json") := by
  have hendless : nestedCorpus.EndlessAt (nestedPlace [.object]).path := ⟨_, rfl, nestedPlace_endless⟩
  have hroot : nestedCorpus.Located (.ofDocument "nested.json" nestedCorpus.root) := ⟨rfl, rfl⟩
  have hstep := hroot.step_inner ⟨⟨_, rfl⟩, rfl, rfl⟩ nestedPlace_inner
  refine ⟨fun next hreaches => ?_, _, Relation.ReflTransGen.single hstep, hendless⟩
  rcases Relation.ReflTransGen.cases_head hreaches with rfl | ⟨first, hfirst, hrest⟩
  · exact Or.inl nestedCorpus_wellShaped
  · obtain rfl := nestedCorpus_step hfirst
    exact Or.inr (hendless.reaches nestedCorpus_consistent
      (hstep.isAddressable nestedCorpus_consistent (Reference.isAddressable_root _)) hrest)

/-- The loop is reported as it is, with a limit and without one, and so is the property, in a run and on its
own. -/
theorem convertAll_cycle_exact_loop :
    (∃ target obstacle hops s,
      convertAll (some 8) loopCorpus.root loopCorpus.rootAddress loopEntries
        (Progress.start loopCorpus.store) = .error (.unresolved target obstacle) s ∧
      obstacle.message = "$ref cycle " ++ "#/definitions/a -> #/definitions/b -> #/definitions/a" ∧
      " -> ".intercalate (hops.map Reference.render) =
        "#/definitions/a -> #/definitions/b -> #/definitions/a" ∧ loopCorpus.RefCycle hops) ∧
    (∃ e s, convertAll none loopCorpus.root loopCorpus.rootAddress loopEntries
      (Progress.start loopCorpus.store) = .error e s ∧ ReportsCycle loopCorpus e) ∧
    (∃ e s, convertAll none nestedCorpus.root nestedCorpus.rootAddress nestedEntries
      (Progress.start nestedCorpus.store) = .error e s ∧ ReportsCycle nestedCorpus e) ∧
    ∃ budget e s, toType 0 budget (nestedPlace [.object]) (.inferred "a")
      (Progress.start nestedCorpus.store) = .error e s ∧ ReportsCycle nestedCorpus e := by
  have hreadable : ∀ address, (Reference.root address).IsReadable :=
    fun address element helement => by rw [List.mem_singleton.1 helement]; rfl
  obtain ⟨hwords, hreports, -, -⟩ := convertAll_cycle_exact loopCorpus_consistent loopEntries
  obtain ⟨-, -, hnested, hplaces⟩ := convertAll_cycle_exact nestedCorpus_consistent nestedEntries
  refine ⟨?_, ?_, ?_, ?_⟩
  · have hfails : obstacleWords
        (convertAll (some 8) loopCorpus.root loopCorpus.rootAddress loopEntries)
        (Progress.start loopCorpus.store) = some ("$ref cycle " ++
          "#/definitions/a -> #/definitions/b -> #/definitions/a") := by decide +kernel
    obtain ⟨target, obstacle, s, hrun, hmessage⟩ := exists_of_obstacleWords hfails
    obtain ⟨hops, hhops, hcycle⟩ := hwords (some 8) target obstacle _ s hrun hmessage
    exact ⟨target, obstacle, hops, s, hrun, hmessage, hhops.symm, hcycle⟩
  · have hroot : loopCorpus.Leads (.ofDocument "loop.json" loopCorpus.root) (loopPlace "a" "b") :=
      ⟨_, rfl, rfl⟩
    refine hreports (fun e he => ?_) [] _ [] _ rfl (fun _ he => absurd he List.not_mem_nil) rfl
      (loopPlace_endless.of_leads hroot)
    rw [List.mem_singleton.1 he]
    exact hreadable "loop.json"
  · refine hnested (fun e he => ?_) [] _ [] (.ofDocument "nested.json" nestedCorpus.root) rfl
      (fun _ he => absurd he List.not_mem_nil) rfl nestedCorpus_knotted
    rw [List.mem_singleton.1 he]
    exact hreadable "nested.json"
  · have hplace : nestedCorpus.Located (nestedPlace [.object]) := ⟨rfl, rfl⟩
    have happroached : Approached nestedCorpus (Progress.start nestedCorpus.store)
        (nestedPlace [.object]) :=
      ⟨rfl, nestedPlace_inner.isAddressable, Or.inr hplace, List.isChain_singleton _⟩
    have hfits : (nestedCorpus.realm []).Fits 0 (nestedPlace [.object]) :=
      (Realm.Fits.ofDocument List.mem_cons_self List.mem_cons_self).inner nestedPlace_inner
    obtain ⟨e, s, hrun, -, hreports⟩ := hplaces 0 _ _ (.inferred "a") _ happroached hplace
      nestedPlace_endless fun _ _ => rfl
    exact ⟨_, e, s, hrun, hreports [] hfits (Realm.Fresh.nil _ _) (Nat.lt_succ_self _)⟩

end Conversion

end ShapeGraph
