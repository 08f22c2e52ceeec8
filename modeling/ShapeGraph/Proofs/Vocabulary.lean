import Mathlib.Algebra.Group.Nat.Defs
import ShapeGraph.Documents.Source
import ShapeGraph.Proofs.Inner

/-!
# The steps that values give rise to

Every step that a conversion takes is named somewhere in the values that it meets: by a key, by the
position of an item, or by a text that is read as a reference.  There are finitely many, and their
number is linear in the size of the values.

## Main definitions

* `Json.steps` — the steps that a value gives rise to.
* `words` — the lists of bounded length over an alphabet.

## Main results

* `Json.length_steps_le` — there are at most linearly many steps.
* `Json.PartOf.of_part?` — a part has fewer steps and is nested less deep.
* `length_words_le` — the number of words.
-/

set_option autoImplicit false

namespace ShapeGraph

/-! ## Words -/

section Words

variable {α : Type}

/-- The lists over an alphabet of at most `n` letters. -/
def words (alphabet : List α) : Nat → List (List α)
  | 0 => [[]]
  | n + 1 => [] :: alphabet.flatMap fun a => (words alphabet n).map (a :: ·)

/-- A list of letters is a word if it is short enough. -/
theorem mem_words {alphabet word : List α} {n : Nat} (hword : ∀ a ∈ word, a ∈ alphabet)
    (hlength : word.length ≤ n) : word ∈ words alphabet n := by
  induction n generalizing word with
  | zero =>
    rw [List.length_eq_zero_iff.1 (Nat.le_zero.1 hlength)]
    exact List.mem_singleton.2 rfl
  | succ n ih =>
    cases word with
    | nil => exact List.mem_cons_self
    | cons a rest =>
      obtain ⟨ha, hrest⟩ := List.forall_mem_cons.1 hword
      refine List.mem_cons_of_mem _ (List.mem_flatMap.2 ⟨a, ha, List.mem_map.2 ⟨rest, ?_, rfl⟩⟩)
      exact ih hrest (Nat.le_of_succ_le_succ hlength)

/-- There are at most as many words as there are numerals of the same length to the next base. -/
theorem length_words_le (alphabet : List α) (n : Nat) :
    (words alphabet n).length ≤ (alphabet.length + 1) ^ n := by
  induction n with
  | zero => exact Nat.le_refl 1
  | succ n ih =>
    have hlength : (words alphabet (n + 1)).length =
        alphabet.length * (words alphabet n).length + 1 := by
      rw [words, List.length_cons, List.length_flatMap]
      simp only [List.length_map, List.map_const', List.sum_replicate_nat]
    have hone : 1 ≤ (alphabet.length + 1) ^ n := Nat.one_le_pow _ _ (Nat.succ_pos _)
    calc (words alphabet (n + 1)).length
        = alphabet.length * (words alphabet n).length + 1 := hlength
      _ ≤ alphabet.length * (alphabet.length + 1) ^ n + (alphabet.length + 1) ^ n :=
        Nat.add_le_add (Nat.mul_le_mul_left _ ih) hone
      _ = (alphabet.length + 1) ^ (n + 1) := by rw [Nat.pow_succ, Nat.mul_comm, Nat.mul_succ]

end Words

/-! ## Texts that are read as references -/

/-- A text has at most one piece more than it has characters. -/
theorem length_segments_le (sep : Char) (s : String) : (segments sep s).length ≤ s.length + 1 := by
  have hsplit : ∀ cs : List Char, (cs.splitOn sep).length ≤ cs.length + 1 := by
    intro cs
    induction cs with
    | nil => exact Nat.le_refl 1
    | cons c rest ih =>
      rw [List.splitOn_cons_eq_if_modifyHead]
      split
      · rw [List.length_cons, List.length_cons]
        omega
      · rw [List.length_modifyHead, List.length_cons]
        omega
  unfold segments
  rw [List.length_map]
  exact hsplit s.toList

/-- The text after a separator is shorter than the whole. -/
theorem length_after_splitFirst {sep : Char} {s before after : String}
    (h : splitFirst sep s = some (before, after)) : after.length < s.length := by
  unfold splitFirst at h
  have hle := (List.dropWhile_sublist (l := s.toList) (· != sep)).length_le
  split at h
  · cases h
  · next c rest hrest =>
    cases h
    rw [hrest, List.length_cons] at hle
    rw [String.length_ofList]
    exact hle

namespace Reference

/-- The steps of a reference do not depend on where it is found. -/
theorem elements_parse (base text : String) :
    (parse base text).elements = (parse "" text).elements := by
  unfold parse
  split <;> rfl

theorem length_elementsOf_le (segments : List String) :
    (elementsOf segments).length ≤ segments.length := by
  fun_induction elementsOf segments with
  | case1 => exact Nat.le_refl 0
  | case2 s => exact Nat.le_refl 1
  | case3 t rest ih => simpa using ih
  | case4 t rest hs ih => simp only [List.length_cons] at ih ⊢; omega
  | case5 s t rest hroot hdefinitions ih => simpa using ih

theorem length_parsePointer_le (pointer : String) :
    (parsePointer pointer).length ≤ pointer.length + 1 :=
  Nat.le_trans (length_elementsOf_le _) (length_segments_le _ _)

/-- A text has at most one step more than it has characters. -/
theorem length_parse_le (base text : String) :
    (parse base text).elements.length ≤ text.length + 1 := by
  unfold parse
  split
  · exact length_parsePointer_le text
  · next address fragment hsplit =>
    have hfragment := length_after_splitFirst hsplit
    have hpointer : (dropLeadingSlash fragment).length ≤ fragment.length := by
      unfold dropLeadingSlash
      split
      · next rest hrest =>
        have hlength : fragment.length = rest.length + 1 := by
          rw [← String.length_toList, hrest, List.length_cons]
        rw [String.length_ofList]
        omega
      · exact Nat.le_refl _
    have hsteps := length_parsePointer_le (dropLeadingSlash fragment)
    dsimp only
    split
    · exact Nat.succ_le_succ (Nat.zero_le _)
    · rw [List.length_cons]
      omega

end Reference

/-! ## Steps -/

/-- The steps for an item at a position: to the item, and to what a list that stands there lists. -/
def positionSteps (i : Nat) : List PathElement :=
  [.key (toString i), .typeBranch i, .branch .allOf i, .branch .oneOf i, .branch .anyOf i]

theorem branch_mem_positionSteps (combinator : Combinator) (i : Nat) :
    .branch combinator i ∈ positionSteps i := by
  cases combinator <;> simp [positionSteps]

namespace Json

mutual

/-- The steps that a value gives rise to. -/
def steps : Json → List PathElement
  | .null | .bool _ | .num _ => []
  | .str text => (Reference.parse "" text).elements
  | .arr items => itemsSteps 0 items
  | .obj members => membersSteps members

/-- The steps that items give rise to, the first of which stands at position `i`. -/
def itemsSteps : Nat → List Json → List PathElement
  | _, [] => []
  | i, v :: rest => positionSteps i ++ v.steps ++ itemsSteps (i + 1) rest

/-- The steps that members give rise to. -/
def membersSteps : List (String × Json) → List PathElement
  | [] => []
  | (k, v) :: rest => .key k :: v.steps ++ membersSteps rest

end

mutual

/-- There are at most linearly many steps. -/
theorem length_steps_le : ∀ v : Json, v.steps.length + 5 ≤ 7 * v.size
  | .null | .bool _ | .num _ => by simp [steps, size]
  | .str text => by
    have h := Reference.length_parse_le "" text
    simp only [steps, size]
    omega
  | .arr items => by
    have h := length_itemsSteps_le 0 items
    simp only [steps, size]
    omega
  | .obj members => by
    have h := length_membersSteps_le members
    simp only [steps, size]
    omega

theorem length_itemsSteps_le : ∀ (i : Nat) (items : List Json),
    (itemsSteps i items).length ≤ 7 * itemsSize items
  | _, [] => Nat.le_refl 0
  | i, v :: rest => by
    have hfirst := length_steps_le v
    have hrest := length_itemsSteps_le (i + 1) rest
    simp only [itemsSteps, itemsSize, positionSteps, List.length_append, List.length_cons,
      List.length_nil]
    omega

theorem length_membersSteps_le : ∀ members : List (String × Json),
    (membersSteps members).length ≤ 7 * membersSize members
  | [] => Nat.le_refl 0
  | (k, v) :: rest => by
    have hfirst := length_steps_le v
    have hrest := length_membersSteps_le rest
    simp only [membersSteps, membersSize, List.length_append, List.length_cons]
    omega

end

/-! ## Parts -/

/-- The part gives rise to no other steps than the value, and it is nested less deep. -/
structure PartOf (part value : Json) : Prop where
  steps : ∀ e ∈ part.steps, e ∈ value.steps
  depth : part.depth < value.depth

theorem PartOf.trans {part middle value : Json} (h : part.PartOf middle) (h' : middle.PartOf value) :
    part.PartOf value :=
  ⟨fun e he => h'.steps e (h.steps e he), Nat.lt_trans h.depth h'.depth⟩

/-- An item is a part of its list, and the list gives rise to the steps for its position. -/
theorem partOf_of_getElem? {items : List Json} {i : Nat} {item : Json} (h : items[i]? = some item) :
    item.PartOf (.arr items) := by
  have hitems : ∀ (k : Nat) (items : List Json) (i : Nat), items[i]? = some item →
      (∀ e ∈ item.steps, e ∈ itemsSteps k items) ∧ item.depth ≤ itemsDepth items := by
    intro k items
    induction items generalizing k with
    | nil => intro i hi; cases hi
    | cons first rest ih =>
      intro i hi
      cases i with
      | zero =>
        cases hi
        exact ⟨fun e he => by simp [itemsSteps, he], Nat.le_max_left _ _⟩
      | succ i =>
        obtain ⟨hsteps, hdepth⟩ := ih (k + 1) i hi
        exact ⟨fun e he => by simp [itemsSteps, hsteps e he],
          Nat.le_trans hdepth (Nat.le_max_right _ _)⟩
  obtain ⟨hsteps, hdepth⟩ := hitems 0 items i h
  exact ⟨hsteps, Nat.lt_succ_of_le hdepth⟩

/-- A list gives rise to the steps for each of its positions. -/
theorem positionSteps_subset {items : List Json} {i : Nat} (h : i < items.length) {e : PathElement}
    (he : e ∈ positionSteps i) : e ∈ (arr items).steps := by
  have hitems : ∀ (items : List Json) (k j : Nat), j < items.length → e ∈ positionSteps (k + j) →
      e ∈ itemsSteps k items := by
    intro items
    induction items with
    | nil => intro k j hj; cases hj
    | cons first rest ih =>
      intro k j hj he
      cases j with
      | zero => simp only [itemsSteps, List.mem_append]; exact Or.inl (Or.inl he)
      | succ j =>
        have hrest := ih (k + 1) j (Nat.lt_of_succ_lt_succ hj)
          (by rwa [Nat.add_right_comm, Nat.add_assoc])
        simp only [itemsSteps, List.mem_append]
        exact Or.inr hrest
  exact hitems items 0 i h (by rwa [Nat.zero_add])

/-- A member is a part of its object, and the object gives rise to the step to its key. -/
theorem partOf_of_mem {members : List (String × Json)} {key : String} {member : Json}
    (h : (key, member) ∈ members) :
    member.PartOf (.obj members) ∧ .key key ∈ (obj members).steps := by
  have hmembers : ∀ members : List (String × Json), (key, member) ∈ members →
      (∀ e ∈ member.steps, e ∈ membersSteps members) ∧ .key key ∈ membersSteps members ∧
        member.depth ≤ membersDepth members := by
    intro members
    induction members with
    | nil => intro hmem; cases hmem
    | cons first rest ih =>
      intro hmem
      rcases List.mem_cons.1 hmem with rfl | hmem
      · exact ⟨fun e he => by simp [membersSteps, he], by simp [membersSteps], Nat.le_max_left _ _⟩
      · obtain ⟨hsteps, hkey, hdepth⟩ := ih hmem
        exact ⟨fun e he => by simp [membersSteps, hsteps e he], by simp [membersSteps, hkey],
          Nat.le_trans hdepth (Nat.le_max_right _ _)⟩
  obtain ⟨hsteps, hkey, hdepth⟩ := hmembers members h
  exact ⟨⟨hsteps, Nat.lt_succ_of_le hdepth⟩, hkey⟩

/-- What is found under a key is a part. -/
theorem PartOf.of_part? {value part : Json} {key : String} (h : value.part? key = some part) :
    part.PartOf value := by
  cases value with
  | arr items =>
    obtain ⟨i, -, hitem⟩ := Option.bind_eq_some_iff.1 h
    exact partOf_of_getElem? hitem
  | obj members =>
    obtain ⟨l, k, hl, -⟩ := List.lookup_eq_some_iff.1 h
    have hmem : (key, part) ∈ members := by
      rw [hl]
      simp
    exact (partOf_of_mem hmem).1
  | null | bool _ | num _ | str _ => cases h

theorem PartOf.of_get? {value part : Json} {key : String} (h : value.get? key = some part) :
    part.PartOf value :=
  .of_part? (part?_of_get? h)

/-- A step within a document leads to a part. -/
theorem PartOf.of_follow? {document fragment part : Json} {e : PathElement}
    (haddressable : e.isAddressable = true) (hroot : e ≠ .root)
    (h : document.follow? fragment e = some part) : part.PartOf fragment := by
  cases e with
  | root => exact absurd rfl hroot
  | key key => exact .of_part? h
  | definition name =>
    obtain ⟨hdefinition, -⟩ := Option.filter_eq_some_iff.1 h
    obtain ⟨definitions, hdefinitions, hschema⟩ := Option.bind_eq_some_iff.1 hdefinition
    exact (PartOf.of_get? hschema).trans (.of_get? hdefinitions)
  | branch combinator i =>
    obtain ⟨cases, hcases, hcase⟩ := Option.bind_eq_some_iff.1 h
    exact (PartOf.of_part? hcase).trans (.of_part? hcases)
  | typeBranch _ | object => cases haddressable

end Json

end ShapeGraph
