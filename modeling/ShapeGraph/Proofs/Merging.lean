import ShapeGraph.Proofs.Handles
import ShapeGraph.Proofs.Sessions

/-!
# Merging attributes

Names and descriptions for one node come from several places and in no particular order.  It does not
matter: merging keeps the strongest names of all sources and all descriptions, however the sources are
ordered, repeated or grouped.

## Main definitions

* `Names.Built` — the names that can come about.
* `Names.mergeAll` — the names of several sources, merged one after the other.
* `Names.Joins`, `Attributes.Joins` — what several sources amount to.
* `TypeGraph.attached` — the attributes that requests attach to a node.

## Main results

* `Names.Joins.unique` — sources determine what they amount to, whatever their order and repetition.
* `Names.Joins.merge` — merging amounts to taking the sources of both sides together.
* `TypeGraph.attributes_performAll` — only attaching attributes changes the attributes of a node.
* `TypeGraph.merging_order_free` — merging is an order-free join, and so is attaching attributes.

## Design

Given names win over inferred ones, so the laws would fail for given names of which there are none.  Such
names cannot be built, which is all that is needed of `Names.Built`.  The laws are not shown by cases on
the confidence of three sources: both sides of each law join the same sources.
-/

set_option autoImplicit false

namespace ShapeGraph

/-- Where merging two values amounts to taking their sources together, merging one after the other amounts to
taking all of them together. -/
theorem joins_foldl {α : Type} {joins : List α → α → Prop} {merge : α → α → α}
    (hmerge : ∀ {l l' a b}, joins l a → joins l' b → joins (l ++ l') (merge a b)) {l l' : List α} {a : α}
    (h : joins l a) (hl' : ∀ b ∈ l', joins [b] b) : joins (l ++ l') (l'.foldl merge a) := by
  induction l' generalizing l a with
  | nil => simpa using h
  | cons b rest ih =>
    rw [List.forall_mem_cons] at hl'
    rw [List.append_cons]
    exact ih (hmerge h hl'.1) hl'.2

/-! ## Names that can be built -/

namespace Names

variable {n m : Names}

/-- The names can come about. -/
inductive Built : Names → Prop
  | empty : Built .empty
  | inferred (name : String) : Built (.inferred name)
  | given (name : String) : Built (.given name)
  | singular {n : Names} (built : Built n) : Built n.singular
  | merge {n m : Names} (built : Built n) (other : Built m) : Built (n.merge m)

theorem isEmpty_eq_false_iff : n.isEmpty = false ↔ ∃ name, name ∈ n.candidates := by
  rw [← Bool.not_eq_true]
  show ¬ n.candidates.isEmpty = true ↔ _
  rw [SortedSet.isEmpty_iff]
  simp only [not_forall, not_not]

/-- The names of either side stay if they are as sure as the result. -/
theorem mem_merge (n m : Names) (name : String) :
    name ∈ (n.merge m).candidates ↔
      n.confidence = (n.merge m).confidence ∧ name ∈ n.candidates ∨
        m.confidence = (n.merge m).confidence ∧ name ∈ m.candidates := by
  unfold Names.merge
  by_cases hm : m.isEmpty = true
  · have hnone : name ∉ m.candidates := SortedSet.isEmpty_iff.1 hm name
    simp [hm, hnone]
  · rw [if_neg hm]
    cases hn : n.confidence <;> cases hc : m.confidence <;> simp [hn, hc]

/-- The result is given if a side is, as long as the other names are not given without there being any. -/
theorem given_merge_iff (hm : m.confidence = .given → ∃ name, name ∈ m.candidates) :
    (n.merge m).confidence = .given ↔ n.confidence = .given ∨ m.confidence = .given := by
  unfold Names.merge
  by_cases hempty : m.isEmpty = true
  · have hinferred : ¬ m.confidence = .given := fun hgiven => by
      obtain ⟨name, hname⟩ := hm hgiven
      exact SortedSet.isEmpty_iff.1 hempty name hname
    simp [hempty, hinferred]
  · rw [if_neg hempty]
    cases hn : n.confidence <;> cases hc : m.confidence <;> simp [hn, hc]

/-- There are given names wherever names are given. -/
theorem Built.exists_of_given (h : n.Built) (hgiven : n.confidence = .given) :
    ∃ name, name ∈ n.candidates := by
  induction h with
  | empty | inferred | singular => cases hgiven
  | given name => exact ⟨name, SortedSet.mem_singleton.2 rfl⟩
  | @merge n m _ _ ihn ihm =>
    rcases (given_merge_iff ihm).1 hgiven with hn | hm
    · obtain ⟨name, hname⟩ := ihn hn
      exact ⟨name, (mem_merge n m name).2 (Or.inl ⟨hn.trans hgiven.symm, hname⟩)⟩
    · obtain ⟨name, hname⟩ := ihm hm
      exact ⟨name, (mem_merge n m name).2 (Or.inr ⟨hm.trans hgiven.symm, hname⟩)⟩

/-- Only inferred names may be missing. -/
theorem Built.inferred_of_isEmpty (h : n.Built) (hempty : n.isEmpty = true) :
    n.confidence = .inferred := by
  cases hn : n.confidence with
  | inferred => rfl
  | given =>
    obtain ⟨name, hname⟩ := h.exists_of_given hn
    exact absurd hname (SortedSet.isEmpty_iff.1 hempty name)

/-! ## Joins of names -/

/-- The names are what several sources amount to: all given names if there are any, or else all inferred
names. -/
structure Joins (sources : List Names) (n : Names) : Prop where
  given_iff : n.confidence = .given ↔ ∃ m ∈ sources, m.confidence = .given ∧ m.isEmpty = false
  mem_iff : ∀ name, name ∈ n.candidates ↔
    ∃ m ∈ sources, m.confidence = n.confidence ∧ name ∈ m.candidates

/-- The names of several sources, merged one after the other. -/
def mergeAll (sources : List Names) : Names := sources.foldl merge .empty

namespace Joins

variable {l l' : List Names} {n' : Names}

/-- Sources determine what they amount to, whatever their order and repetition. -/
theorem unique (h : Joins l n) (h' : Joins l' n') (hsame : ∀ m, m ∈ l ↔ m ∈ l') : n = n' := by
  have hgiven : n.confidence = .given ↔ n'.confidence = .given := by
    rw [h.given_iff, h'.given_iff]
    simp only [hsame]
  have hconfidence : n.confidence = n'.confidence := by
    cases hn : n.confidence <;> cases hn' : n'.confidence <;> simp_all
  have hcandidates : n.candidates = n'.candidates := by
    refine SortedSet.eq_of_mem_iff fun name => ?_
    rw [h.mem_iff, h'.mem_iff, hconfidence]
    simp only [hsame]
  cases n
  cases n'
  congr

/-- No source amounts to no names. -/
theorem nil : Joins [] .empty := by
  constructor <;> simp [empty]

/-- A single source amounts to itself. -/
theorem single (h : n.Built) : Joins [n] n := by
  constructor
  · constructor
    · intro hn
      exact ⟨n, List.mem_singleton.2 rfl, hn, isEmpty_eq_false_iff.2 (h.exists_of_given hn)⟩
    · rintro ⟨m, hm, hgiven, -⟩
      rwa [← List.mem_singleton.1 hm]
  · simp

/-- Where names are given, there are some. -/
theorem exists_of_given (h : Joins l n) (hgiven : n.confidence = .given) :
    ∃ name, name ∈ n.candidates := by
  obtain ⟨m, hm, hm', hsome⟩ := h.given_iff.1 hgiven
  obtain ⟨name, hname⟩ := isEmpty_eq_false_iff.1 hsome
  exact ⟨name, (h.mem_iff name).2 ⟨m, hm, hm'.trans hgiven.symm, hname⟩⟩

/-- The names of some confidence that sources have, as long as what they amount to is not surer. -/
theorem mem_of_confidence (h : Joins l n) {confidence : Confidence}
    (hle : n.confidence = .given → confidence = .given) (name : String) :
    n.confidence = confidence ∧ name ∈ n.candidates ↔
      ∃ m ∈ l, m.confidence = confidence ∧ name ∈ m.candidates := by
  constructor
  · rintro ⟨rfl, hname⟩
    exact (h.mem_iff name).1 hname
  · rintro ⟨m, hm, rfl, hname⟩
    have heq : n.confidence = m.confidence := by
      cases hn : n.confidence with
      | given => exact (hle hn).symm
      | inferred =>
        cases hm' : m.confidence with
        | inferred => rfl
        | given =>
          have hgiven := h.given_iff.2 ⟨m, hm, hm', isEmpty_eq_false_iff.2 ⟨name, hname⟩⟩
          rw [hn] at hgiven
          cases hgiven
    exact ⟨heq, (h.mem_iff name).2 ⟨m, hm, heq.symm, hname⟩⟩

/-- Merging amounts to taking the sources of both sides together. -/
theorem merge (h : Joins l n) (h' : Joins l' m) : Joins (l ++ l') (n.merge m) := by
  have hgiven := given_merge_iff (n := n) h'.exists_of_given
  constructor
  · rw [hgiven, h.given_iff, h'.given_iff]
    simp only [List.mem_append, or_and_right, exists_or]
  · intro name
    rw [mem_merge, h.mem_of_confidence (fun hn => hgiven.2 (Or.inl hn)),
      h'.mem_of_confidence (fun hm => hgiven.2 (Or.inr hm))]
    simp only [List.mem_append, or_and_right, exists_or]

end Joins

/-- What several sources amount to, merged one after the other. -/
theorem joins_mergeAll {l : List Names} (hl : ∀ n ∈ l, n.Built) : Joins l (mergeAll l) :=
  joins_foldl Joins.merge Joins.nil fun n hn => .single (hl n hn)

/-- Merging is associative and commutative, merging names into themselves changes nothing, and neither does
merging with no names. -/
theorem Built.merge_laws {a b c : Names} (ha : a.Built) (hb : b.Built) (hc : c.Built) :
    (a.merge b).merge c = a.merge (b.merge c) ∧ a.merge b = b.merge a ∧ a.merge a = a ∧
      Names.empty.merge a = a ∧ a.merge .empty = a := by
  have ja := Joins.single ha
  have jb := Joins.single hb
  have jc := Joins.single hc
  refine ⟨?_, ?_, ?_, ?_, ?_⟩
  · exact ((ja.merge jb).merge jc).unique (ja.merge (jb.merge jc)) (by simp)
  · exact (ja.merge jb).unique (jb.merge ja) (by simp [or_comm])
  · exact (ja.merge ja).unique ja (by simp)
  · exact (Joins.nil.merge ja).unique ja (by simp)
  · exact (ja.merge Joins.nil).unique ja (by simp)

end Names

/-! ## Joins of attributes -/

namespace Attributes

/-- The attributes are what several sources amount to. -/
structure Joins (sources : List Attributes) (a : Attributes) : Prop where
  names : Names.Joins (sources.map Attributes.names) a.names
  descriptions : ∀ text, text ∈ a.descriptions ↔ ∃ b ∈ sources, text ∈ b.descriptions

namespace Joins

variable {l l' : List Attributes} {a b : Attributes}

theorem unique (h : Joins l a) (h' : Joins l' b) (hsame : ∀ c, c ∈ l ↔ c ∈ l') : a = b := by
  have hnames : a.names = b.names :=
    h.names.unique h'.names fun n => by simp only [List.mem_map, hsame]
  have hdescriptions : a.descriptions = b.descriptions := by
    refine SortedSet.eq_of_mem_iff fun text => ?_
    rw [h.descriptions, h'.descriptions]
    simp only [hsame]
  cases a
  cases b
  congr

theorem single (h : a.names.Built) : Joins [a] a :=
  ⟨.single h, fun text => by simp⟩

theorem merge (h : Joins l a) (h' : Joins l' b) : Joins (l ++ l') (a.merge b) := by
  constructor
  · rw [List.map_append]
    exact h.names.merge h'.names
  · intro text
    show text ∈ a.descriptions.union b.descriptions ↔ _
    rw [SortedSet.mem_union, h.descriptions, h'.descriptions]
    simp only [List.mem_append, or_and_right, exists_or]

end Joins

end Attributes

/-! ## Attaching attributes to a node -/

/-- The attributes that a request attaches to a node. -/
def Request.attached (t : NodeId) : Request → List Attributes
  | .addAttributes u attributes => if u = t then [attributes] else []
  | _ => []

/-- The names that a request attaches, if any, can come about. -/
def Request.BuildsNames : Request → Prop
  | .addAttributes _ attributes => attributes.names.Built
  | _ => True

theorem Request.mem_attached {t : NodeId} {r : Request} {a : Attributes} :
    a ∈ r.attached t ↔ r = .addAttributes t a := by
  cases r with
  | addAttributes u attributes =>
    unfold attached
    by_cases hu : u = t
    · simp [hu, eq_comm]
    · simp [hu]
  | _ => simp [attached]

namespace TypeGraph

variable {g : TypeGraph} {t : NodeId}

/-- The attributes that requests attach to a node, in the order of the requests. -/
def attached (t : NodeId) (requests : List Request) : List Attributes :=
  requests.flatMap (Request.attached t)

theorem mem_attached {requests : List Request} {a : Attributes} :
    a ∈ attached t requests ↔ .addAttributes t a ∈ requests := by
  unfold attached
  simp only [List.mem_flatMap, Request.mem_attached]
  exact ⟨fun ⟨r, hr, heq⟩ => heq ▸ hr, fun h => ⟨_, h, rfl⟩⟩

/-- Of all requests, only one that attaches attributes to a node changes the attributes of the node. -/
theorem attributes_perform (ht : t < g.nodes.length) (r : Request) :
    (g.perform r).2.attributes t = (r.attached t).foldl Attributes.merge (g.attributes t) := by
  cases r with
  | primitive | enum | array | map | record => exact attributes_intern g _ t
  | declare operation => exact attributes_allocate g _ t
  | setMembers u members =>
    show (g.setMembers u members).2.attributes t = _
    rw [setMembers_snd]
    exact attributes_replaceMembers g u members t
  | addAttributes u attributes =>
    show (g.addAttributes u attributes).attributes t = _
    by_cases hu : u = t
    · subst hu
      rw [attributes_addAttributes_self ht, Request.attached, if_pos rfl]
      rfl
    · rw [attributes_addAttributes_of_ne g (Ne.symm hu), Request.attached, if_neg hu]
      rfl
  | addTopLevel name u => rfl

/-- What a node has after requests is what it had, with all that they attach to it merged into it. -/
theorem attributes_performAll (ht : t < g.nodes.length) (requests : List Request) :
    (g.performAll requests).attributes t =
      (attached t requests).foldl Attributes.merge (g.attributes t) := by
  induction requests generalizing g with
  | nil => rfl
  | cons r rest ih =>
    show ((g.perform r).2.performAll rest).attributes t = _
    rw [ih (Nat.lt_of_lt_of_le ht (length_le_perform g r)), attributes_perform ht r]
    exact List.foldl_append.symm

/-- As long as requests attach names that can come about, all nodes have such names. -/
theorem built_names_perform (hg : ∀ t, (g.attributes t).names.Built) {r : Request}
    (hr : r.BuildsNames) (t : NodeId) : ((g.perform r).2.attributes t).names.Built := by
  refine @perform_preserves g (fun h => (h.attributes t).names.Built) r (fun shape _ => ?_)
    (fun operation => ?_) (fun u members _ => ?_) (fun u attributes heq => ?_) fun _ _ => hg t
  · rw [attributes_intern]
    exact hg t
  · exact (attributes_allocate g _ t).symm ▸ hg t
  · rw [attributes_replaceMembers]
    exact hg t
  · subst heq
    by_cases ht : t < g.nodes.length
    · rcases attributes_addAttributes g ht attributes with heq | heq <;> rw [heq]
      · exact hg t
      · exact (hg t).merge hr
    · rw [attributes_of_le]
      · exact .empty
      · rw [length_addAttributes]
        exact Nat.le_of_not_lt ht

theorem built_names_performAll {requests : List Request} (hg : ∀ t, (g.attributes t).names.Built)
    (hrequests : ∀ r ∈ requests, r.BuildsNames) (t : NodeId) :
    ((g.performAll requests).attributes t).names.Built := by
  induction requests generalizing g with
  | nil => exact hg t
  | cons r rest ih =>
    rw [List.forall_mem_cons] at hrequests
    exact ih (built_names_perform hg hrequests.1) hrequests.2

/-- What a node has after requests is what it had and all that they attach to it, taken together. -/
theorem joins_performAll (ht : t < g.nodes.length) {requests : List Request}
    (hg : (g.attributes t).names.Built) (hrequests : ∀ r ∈ requests, r.BuildsNames) :
    Attributes.Joins (g.attributes t :: attached t requests) ((g.performAll requests).attributes t) := by
  rw [attributes_performAll ht]
  have hattached : ∀ a ∈ attached t requests, Attributes.Joins [a] a :=
    fun a ha => .single (hrequests _ (mem_attached.1 ha))
  have hstart : Attributes.Joins [g.attributes t] (g.attributes t) := .single hg
  exact joins_foldl Attributes.Joins.merge hstart hattached

/-- Merging is an order-free join.  Of names that can come about, only inferred ones may be missing; on them
merging is associative, commutative and idempotent, with no names as its unit, and several sources amount
to all given names if there are any, or else to all inferred names.  So what a node has after requests
does not depend on how often and in what order they attach attributes to it. -/
theorem merging_order_free :
    (∀ n : Names, n.Built → n.isEmpty = true → n.confidence = .inferred) ∧
    (∀ a b c : Names, a.Built → b.Built → c.Built →
      (a.merge b).merge c = a.merge (b.merge c) ∧ a.merge b = b.merge a ∧ a.merge a = a ∧
        Names.empty.merge a = a ∧ a.merge .empty = a) ∧
    (∀ sources : List Names, (∀ n ∈ sources, n.Built) → Names.Joins sources (.mergeAll sources)) ∧
    ∀ (before calls calls' : List Request) (t : NodeId),
      (∀ r ∈ before ++ calls ++ calls', r.BuildsNames) →
      t < (empty.performAll before).nodes.length →
      (∀ a, .addAttributes t a ∈ calls ↔ .addAttributes t a ∈ calls') →
      ((empty.performAll before).performAll calls).attributes t =
        ((empty.performAll before).performAll calls').attributes t := by
  refine ⟨fun n hn => hn.inferred_of_isEmpty, fun a b c ha hb hc => ha.merge_laws hb hc,
    fun sources hsources => Names.joins_mergeAll hsources, ?_⟩
  intro before calls calls' t hbuilt ht hsame
  have hbefore : ((empty.performAll before).attributes t).names.Built :=
    built_names_performAll (g := empty) (fun _ => Names.Built.empty)
      (fun r hr => hbuilt r (by simp [hr])) t
  have hcalls : ∀ r ∈ calls, r.BuildsNames := fun r hr => hbuilt r (by simp [hr])
  have hcalls' : ∀ r ∈ calls', r.BuildsNames := fun r hr => hbuilt r (by simp [hr])
  refine (joins_performAll ht hbefore hcalls).unique (joins_performAll ht hbefore hcalls') fun a => ?_
  rw [List.mem_cons, List.mem_cons, mem_attached, mem_attached, hsame a]

/-- An enum gets its title and a description, whichever comes first and however often. -/
theorem merging_order_free_enum :
    let title : Attributes := ⟨.given "Color", ∅⟩
    let hint : Attributes := ⟨.inferred "colors", .singleton "A color."⟩
    let g := empty.performAll [.enum ["red", "green"]]
    (g.performAll [.addAttributes 0 title, .addAttributes 0 hint]).attributes 0 =
        (g.performAll [.addAttributes 0 hint, .array 0, .addAttributes 0 title,
          .addAttributes 0 hint]).attributes 0 ∧
      (g.performAll [.addAttributes 0 title, .addAttributes 0 hint]).attributes 0 =
        ⟨.given "Color", .singleton "A color."⟩ := by
  intro title hint g
  refine ⟨merging_order_free.2.2.2 [.enum ["red", "green"]] _ _ 0 ?_ (by decide) ?_, by decide⟩
  · have htitle : title.names.Built := .given "Color"
    have hhint : hint.names.Built := .inferred "colors"
    simp [Request.BuildsNames, htitle, hhint]
  · intro a
    have hswap : a = title ∨ a = hint ↔ a = hint ∨ a = title ∨ a = hint := by tauto
    simpa using hswap

end TypeGraph

end ShapeGraph
