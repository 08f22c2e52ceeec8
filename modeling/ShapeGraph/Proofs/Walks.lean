import ShapeGraph.Place
import ShapeGraph.Reference.Hint

/-!
# Walks through documents

The path of a place lists how to get there from the root of its document.  This module follows paths
as they are, without failures and without a bound on indices, and compares that with the walk to the
target of a reference.

## Main definitions

* `Json.follow?` — the fragment that one element of a path leads to.
* `Reference.IsAddressable` — the path ends with a step that leads somewhere in the text.
* `Failure.isLogicFault`, `Failure.isDepthFault` — causes that lie outside the schema's text.
* `Failure.isCycle` — a cycle of references as the cause.

## Main results

* `Place.position?_toString` — an index in decimal names the item at that index.
* `Place.follow?_of_walk` — a step of a walk follows the element that it takes.
* `Place.lookup_isAddressable` — a walk never ends at a step that leads nowhere.
* `Reference.isAddressable_of_mem_parse` — a reference that has been read has only such steps.
* `Place.lookup_error`, `Reference.hint_ne_error` — such references cause no fault of logic.
-/

set_option autoImplicit false

namespace ShapeGraph

/-! ## Kinds of failures -/

namespace Failure

/-- Whether the cause is a fault of logic: an operation was asked of something that it does not apply
to. -/
def isLogicFault : Failure → Bool
  | .unaddressable _ _ | .conflictingBinding _ | .nameless _ | .notASet _ _ => true
  | _ => false

/-- Whether the cause is that schemas are nested too deep. -/
def isDepthFault : Failure → Bool
  | .depthExceeded _ _ => true
  | _ => false

/-- Whether the cause is a cycle of references. -/
def isCycle : Failure → Bool
  | .unresolved _ (.cycle _) => true
  | _ => false

end Failure

/-! ## Results in sequence -/

section Results

variable {ε α β : Type} {x : Except ε α} {f : α → Except ε β}

/-- A sequence that gives a result has a first part that gives one. -/
theorem exists_of_bind_eq_ok {b : β} (h : x >>= f = .ok b) : ∃ a, x = .ok a ∧ f a = .ok b := by
  cases x with
  | ok a => exact ⟨a, rfl, h⟩
  | error e => cases h

/-- A sequence that fails does so in its first part or after it. -/
theorem of_bind_eq_error {e : ε} (h : x >>= f = .error e) :
    x = .error e ∨ ∃ a, x = .ok a ∧ f a = .error e := by
  cases x with
  | ok a => exact Or.inr ⟨a, rfl, h⟩
  | error e' =>
    cases h
    exact Or.inl rfl

end Results

/-! ## Parts of values -/

namespace Place

/-- The characters of a key without one plus sign at their beginning. -/
def dropPlus : List Char → List Char
  | '+' :: rest => rest
  | cs => cs

/-- The index that a decimal key names, however large. -/
def position? (key : String) : Option Nat :=
  let digits := dropPlus key.toList
  if digits ≠ [] ∧ digits.all Char.isDigit then
    some (Literal.ofDigits (digits.map fun c => c.toNat - 48))
  else none

/-- An index that fits 64 bits is named by the same keys. -/
theorem position?_of_index? {key : String} {i : Nat} (h : index? key = some i) :
    position? key = some i := by
  have hindex : ∀ digits : List Char,
      (if digits ≠ [] ∧ digits.all Char.isDigit then
        let n := Literal.ofDigits (digits.map fun c => c.toNat - 48)
        if n ≤ Literal.maxUnsigned then some n else none
      else none) = some i →
      (if digits ≠ [] ∧ digits.all Char.isDigit then
        some (Literal.ofDigits (digits.map fun c => c.toNat - 48))
      else none) = some i := by
    intro digits h
    split at h
    · next hdigits =>
      rw [if_pos hdigits]
      dsimp only at h
      split at h
      · exact h
      · cases h
    · cases h
  exact hindex (dropPlus key.toList) h

/-- An index in decimal names the item at that index. -/
theorem position?_toString (i : Nat) : position? (toString i) = some i := by
  have hdigit : ∀ c ∈ Nat.toDigits 10 i, c.isDigit = true := fun c hc =>
    Nat.isDigit_of_mem_toDigits (by decide) (by decide) hc
  have hplus : dropPlus (Nat.toDigits 10 i) = Nat.toDigits 10 i := by
    unfold dropPlus
    split
    · next rest h => cases hdigit '+' (by simp [h])
    · rfl
  have hvalue : Literal.ofDigits ((Nat.toDigits 10 i).map fun c => c.toNat - 48) = i := by
    rw [Literal.ofDigits, List.foldl_map]
    exact Nat.ofDigitChars_ten_toDigits
  unfold position?
  rw [Nat.toString_eq_repr, Nat.toList_repr, hplus]
  exact (if_pos ⟨Nat.toDigits_ne_nil, List.all_eq_true.2 hdigit⟩).trans (congrArg some hvalue)

end Place

namespace Json

/-- The part of a value under a key, or at the index that the key names. -/
def part? (value : Json) (key : String) : Option Json :=
  match value with
  | .arr items => (Place.position? key).bind fun i => items[i]?
  | .obj members => members.lookup key
  | _ => none

/-- The fragment that one element of a path leads to; elements that lead nowhere in the text stay
where they are. -/
def follow? (document fragment : Json) : PathElement → Option Json
  | .root => some document
  | .definition name => Place.definition? name fragment
  | .key key => fragment.part? key
  | .branch combinator i => (fragment.part? combinator.keyword).bind fun cases =>
      cases.part? (toString i)
  | .typeBranch _ | .object => some fragment

/-- The members of an object are its parts. -/
theorem part?_of_get? {value part : Json} {key : String} (h : value.get? key = some part) :
    value.part? key = some part := by
  cases value <;> simp_all [get?, part?]

/-- The items of a list are its parts under their indices. -/
theorem part?_arr (items : List Json) (i : Nat) : (arr items).part? (toString i) = items[i]? := by
  simp only [part?, Place.position?_toString]
  rfl

end Json

/-! ## Paths that lead somewhere in the text -/

/-- The last step of the path, if there is one, leads somewhere in the text of a schema. -/
def Reference.IsAddressable (path : Reference) : Prop :=
  ∀ e ∈ path.elements.getLast?, e.isAddressable = true

theorem Reference.isAddressable_root (address : String) : (root address).IsAddressable := by
  intro e he
  cases he
  rfl

@[simp] theorem Reference.isAddressable_push {path : Reference} {e : PathElement} :
    (path.push e).IsAddressable ↔ e.isAddressable = true := by
  simp [IsAddressable, push]

theorem Reference.pushKeys_pair (path : Reference) (first second : String) :
    path.pushKeys [first, second] = (path.push (.key first)).push (.key second) := by
  simp [pushKeys, push]

/-- Different elements lead to different paths. -/
theorem Reference.push_injective {path other : Reference} {e f : PathElement}
    (h : path.push e = other.push f) : path = other ∧ e = f := by
  simp only [push, mk.injEq] at h
  obtain ⟨haddress, helements⟩ := h
  obtain ⟨hpath, he⟩ := List.append_inj' helements rfl
  cases path
  cases other
  simp_all

namespace Place

/-- A part that is found is the part that the key names. -/
theorem part?_of_step {target path : Reference} {value part : Json} {key : String}
    (h : step target path value key = .ok part) : value.part? key = some part := by
  cases value with
  | arr items =>
    simp only [step] at h
    cases hindex : index? key with
    | none =>
      rw [hindex] at h
      cases h
    | some i =>
      rw [hindex] at h
      cases hitem : items[i]? with
      | none => simp only [hitem] at h; cases h
      | some item =>
        simp only [hitem] at h
        cases h
        simp only [Json.part?, position?_of_index? hindex, Option.bind_some, hitem]
  | obj members =>
    simp only [step] at h
    cases hmember : members.lookup key with
    | none => simp only [hmember] at h; cases h
    | some member =>
      simp only [hmember] at h
      cases h
      exact hmember
  | null | bool _ | num _ | str _ => cases h

/-- A part is only missed for reasons that lie in the text. -/
theorem step_error {target path : Reference} {value : Json} {key : String} {e : Failure}
    (h : step target path value key = .error e) :
    e.isLogicFault = false ∧ e.isDepthFault = false ∧ e.isCycle = false := by
  unfold step at h
  repeat' split at h
  all_goals cases h
  all_goals exact ⟨rfl, rfl, rfl⟩

/-- What a step of a walk does to the place. -/
structure WalkSpec (target : Reference) (place : Place) (element : PathElement)
    (reached : Place) : Prop where
  document_eq : reached.document = place.document
  follows : place.document.follow? place.fragment element = some reached.fragment
  addressable : element.isAddressable = true
  path_eq : reached.path =
    if element = .root then .root target.address else place.path.push element

/-- A step to the root starts over. -/
theorem WalkSpec.eq_ofDocument {target : Reference} {place reached : Place}
    (h : WalkSpec target place .root reached) :
    reached = ofDocument target.address place.document := by
  obtain ⟨hdocument, hfollows, -, hpath⟩ := h
  cases reached
  simp only [Json.follow?, Option.some.injEq, if_true] at hdocument hfollows hpath
  simp only [ofDocument, mk.injEq]
  exact ⟨hdocument, hfollows.symm, hpath⟩

/-- Any other step goes on from where it is taken. -/
theorem WalkSpec.eq_push {target : Reference} {place reached : Place} {element : PathElement}
    (h : WalkSpec target place element reached) (helement : element ≠ .root) :
    reached = ⟨place.document, reached.fragment, place.path.push element⟩ := by
  obtain ⟨hdocument, -, -, hpath⟩ := h
  rw [if_neg helement] at hpath
  cases reached
  simp only [mk.injEq]
  exact ⟨hdocument, trivial, hpath⟩

/-- A step of a walk follows the element that it takes. -/
theorem follow?_of_walk {target : Reference} {place reached : Place} {element : PathElement}
    (h : walk target place element = .ok reached) : WalkSpec target place element reached := by
  cases element with
  | root =>
    cases h
    exact ⟨rfl, rfl, rfl, rfl⟩
  | definition name =>
    simp only [walk] at h
    cases hschema : definition? name place.fragment with
    | none => rw [hschema] at h; cases h
    | some schema =>
      rw [hschema] at h
      cases h
      exact ⟨rfl, hschema, rfl, rfl⟩
  | key key =>
    obtain ⟨part, hpart, h⟩ := exists_of_bind_eq_ok h
    cases h
    exact ⟨rfl, part?_of_step hpart, rfl, rfl⟩
  | branch combinator i =>
    obtain ⟨cases, hcases, h⟩ := exists_of_bind_eq_ok h
    obtain ⟨case, hcase, h⟩ := exists_of_bind_eq_ok h
    cases h
    refine ⟨rfl, ?_, rfl, rfl⟩
    simp only [Json.follow?, part?_of_step hcases, Option.bind_some, part?_of_step hcase]
  | typeBranch _ | object => cases h

/-- A walk only stops for reasons that lie in the text, or at a step that leads nowhere. -/
theorem walk_error {target : Reference} {place : Place} {element : PathElement} {e : Failure}
    (h : walk target place element = .error e) :
    e.isDepthFault = false ∧ e.isCycle = false ∧
      (element.isAddressable = true → e.isLogicFault = false) := by
  cases element with
  | root => cases h
  | definition name =>
    simp only [walk] at h
    split at h
    · cases h
    · cases h
      exact ⟨rfl, rfl, fun _ => rfl⟩
  | key key =>
    rcases of_bind_eq_error h with hpart | ⟨part, -, h⟩
    · exact ⟨(step_error hpart).2.1, (step_error hpart).2.2, fun _ => (step_error hpart).1⟩
    · cases h
  | branch combinator i =>
    rcases of_bind_eq_error h with hcases | ⟨cases, -, h⟩
    · exact ⟨(step_error hcases).2.1, (step_error hcases).2.2, fun _ => (step_error hcases).1⟩
    · rcases of_bind_eq_error h with hcase | ⟨case, -, h⟩
      · exact ⟨(step_error hcase).2.1, (step_error hcase).2.2, fun _ => (step_error hcase).1⟩
      · cases h
  | typeBranch _ | object =>
    cases h
    exact ⟨rfl, rfl, fun haddressable => by cases haddressable⟩

/-! ## Walks to the target of a reference -/

/-- What is kept by each step that follows its element is kept by a walk. -/
theorem lookup_induction {target : Reference} {motive : Place → Prop} {place reached : Place}
    (h : place.lookup target = .ok reached) (hstart : motive place)
    (hstep : ∀ p q element, element ∈ target.elements → motive p → WalkSpec target p element q →
      motive q) : motive reached := by
  have hwalk : ∀ (elements : List PathElement) (p : Place), (∀ e ∈ elements, e ∈ target.elements) →
      motive p → elements.foldlM (walk target) p = .ok reached → motive reached := by
    intro elements
    induction elements with
    | nil =>
      intro p _ hp hfold
      cases hfold
      exact hp
    | cons element rest ih =>
      intro p hmem hp hfold
      rw [List.foldlM_cons] at hfold
      obtain ⟨q, hq, hfold⟩ := exists_of_bind_eq_ok hfold
      refine ih q (fun e he => hmem e (List.mem_cons_of_mem _ he)) ?_ hfold
      exact hstep p q element (hmem element List.mem_cons_self) hp (follow?_of_walk hq)
  exact hwalk target.elements place (fun _ he => he) hstart h

/-- A walk never ends at a step that leads nowhere. -/
theorem lookup_isAddressable {target : Reference} {place reached : Place}
    (h : place.lookup target = .ok reached) (hplace : place.path.IsAddressable) :
    reached.path.IsAddressable := by
  refine lookup_induction (motive := fun p => p.path.IsAddressable) h hplace ?_
  intro p q element _ _ hspec
  rw [hspec.path_eq]
  split
  · exact Reference.isAddressable_root _
  · exact Reference.isAddressable_push.2 hspec.addressable

/-- A walk never stops because schemas are nested too deep or references lead back, and along steps that
lead somewhere it only stops for reasons that lie in the text. -/
theorem lookup_error {target : Reference} {place : Place} {e : Failure}
    (h : place.lookup target = .error e) :
    e.isDepthFault = false ∧ e.isCycle = false ∧
      ((∀ element ∈ target.elements, element.isAddressable = true) → e.isLogicFault = false) := by
  unfold lookup at h
  generalize target.elements = elements at h ⊢
  induction elements generalizing place with
  | nil => cases h
  | cons element rest ih =>
    rw [List.foldlM_cons] at h
    rcases of_bind_eq_error h with hfirst | ⟨q, -, hrest⟩
    · obtain ⟨hdepth, hcycle, hlogic⟩ := walk_error hfirst
      exact ⟨hdepth, hcycle, fun htarget => hlogic (htarget element List.mem_cons_self)⟩
    · obtain ⟨hdepth, hcycle, hlogic⟩ := ih hrest
      exact ⟨hdepth, hcycle, fun htarget => hlogic fun e he => htarget e (List.mem_cons_of_mem _ he)⟩

end Place

/-! ## References that have been read -/

namespace Reference

/-- The segments of a pointer stand for steps that lead somewhere. -/
theorem isAddressable_of_mem_elementsOf {segments : List String} {e : PathElement}
    (h : e ∈ elementsOf segments) : e.isAddressable = true := by
  fun_induction elementsOf segments with
  | case1 => cases h
  | case2 s =>
    rw [List.mem_singleton] at h
    subst h
    split <;> rfl
  | case3 t rest ih =>
    rcases List.mem_cons.1 h with rfl | h
    · rfl
    · exact ih h
  | case4 t rest hs ih =>
    rcases List.mem_cons.1 h with rfl | h
    · rfl
    · exact ih h
  | case5 s t rest hroot hdefinitions ih =>
    rcases List.mem_cons.1 h with rfl | h
    · rfl
    · exact ih h

/-- A reference that has been read has only steps that lead somewhere. -/
theorem isAddressable_of_mem_parse {base text : String} {e : PathElement}
    (h : e ∈ (parse base text).elements) : e.isAddressable = true := by
  unfold parse at h
  split at h
  · exact isAddressable_of_mem_elementsOf h
  · rcases List.mem_cons.1 h with rfl | h
    · rfl
    · split at h
      · cases h
      · exact isAddressable_of_mem_elementsOf h

/-- A reference only refuses a name for the steps that lead nowhere. -/
theorem hint_error {target : Reference} {e : Failure} (h : target.hint = .error e) :
    e = .nameless target := by
  unfold hint at h
  generalize target.elements.reverse = elements at h
  fun_induction hintAmong target elements with
  | case1 | case2 | case3 | case4 => cases h
  | case5 key rest hkey ih => exact ih h
  | case6 _ _ rest ih => exact ih h
  | case7 | case8 => cases h; rfl

/-- A reference with only steps that lead somewhere can be asked for a name. -/
theorem hint_ne_error {target : Reference} {e : Failure}
    (htarget : ∀ element ∈ target.elements, element.isAddressable = true) :
    target.hint ≠ .error e := by
  have hamong : ∀ elements : List PathElement, (∀ f ∈ elements, f.isAddressable = true) →
      hintAmong target elements ≠ .error e := by
    intro elements helements
    fun_induction hintAmong target elements with
    | case1 | case2 | case3 | case4 => simp
    | case5 key rest hkey ih => exact ih fun f hf => helements f (List.mem_cons_of_mem _ hf)
    | case6 _ _ rest ih => exact ih fun f hf => helements f (List.mem_cons_of_mem _ hf)
    | case7 i rest => cases helements _ List.mem_cons_self
    | case8 rest => cases helements _ List.mem_cons_self
  exact hamong _ fun f hf => htarget f (List.mem_reverse.1 hf)

end Reference

end ShapeGraph
