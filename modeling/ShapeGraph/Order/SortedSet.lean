/-!
# Sorted sets

Finite sets kept as strictly ascending lists, so that equal sets are equal values and listing a
set needs no further sorting.  Name hints, descriptions and the members of a union are such sets.

## Main definitions

* `insertAscending` — put an element into a strictly ascending list.
* `SortedSet` — a strictly ascending list together with the proof that it ascends.
* `SortedSet.insert`, `SortedSet.ofList`, `SortedSet.union`, `SortedSet.map`.

## Main results

* `pairwise_insertAscending` — insertion keeps a list strictly ascending.
* `mem_insertAscending` — insertion adds exactly the new element.

## Implementation notes

The invariant is a field of the type, so every operation has to re-establish it and no caller can
break it.  Only transitivity of `<` is needed for that; that insertion adds the element itself, and
not merely one that the order cannot tell apart from it, needs trichotomy.
-/

set_option autoImplicit false

namespace ShapeGraph

/-- The order of texts is transitive. -/
instance transLtString : Trans (LT.lt : String → String → Prop) LT.lt LT.lt :=
  ⟨String.lt_trans⟩

variable {α : Type} [LT α] [DecidableLT α]

/-! ## Strictly ascending lists -/

/-- Put `a` at its place in an ascending list; a list that already holds it stays as it is. -/
def insertAscending (a : α) : List α → List α
  | [] => [a]
  | b :: rest =>
    if a < b then a :: b :: rest
    else if b < a then b :: insertAscending a rest
    else b :: rest

/-- Insertion brings in no element but the new one. -/
theorem mem_of_mem_insertAscending {a x : α} {l : List α} (h : x ∈ insertAscending a l) :
    x = a ∨ x ∈ l := by
  induction l with
  | nil => simpa [insertAscending] using h
  | cons b rest ih =>
    simp only [insertAscending] at h
    split at h
    · simpa using h
    · split at h
      · rcases List.mem_cons.1 h with rfl | h
        · simp
        · rcases ih h with rfl | h <;> simp [*]
      · exact Or.inr h

/-- Insertion loses no element. -/
theorem mem_insertAscending_of_mem {a x : α} {l : List α} (h : x ∈ l) :
    x ∈ insertAscending a l := by
  induction l with
  | nil => cases h
  | cons b rest ih =>
    simp only [insertAscending]
    split
    · exact List.mem_cons_of_mem _ h
    · split
      · rcases List.mem_cons.1 h with rfl | h
        · simp
        · exact List.mem_cons_of_mem _ (ih h)
      · exact h

/-- Insertion keeps a list strictly ascending. -/
theorem pairwise_insertAscending [Trans (LT.lt : α → α → Prop) LT.lt LT.lt] (a : α) {l : List α}
    (h : l.Pairwise (· < ·)) : (insertAscending a l).Pairwise (· < ·) := by
  induction l with
  | nil => simp [insertAscending]
  | cons b rest ih =>
    have hb := List.pairwise_cons.1 h
    simp only [insertAscending]
    split
    · next hab =>
      refine List.pairwise_cons.2 ⟨fun x hx => ?_, h⟩
      rcases List.mem_cons.1 hx with rfl | hx
      · exact hab
      · exact Trans.trans hab (hb.1 x hx)
    · split
      · next hba =>
        refine List.pairwise_cons.2 ⟨fun x hx => ?_, ih hb.2⟩
        rcases mem_of_mem_insertAscending hx with rfl | hx
        · exact hba
        · exact hb.1 x hx
      · exact h

/-- Where `<` decides between any two different elements, insertion adds exactly the new one. -/
theorem mem_insertAscending [Std.Trichotomous (LT.lt : α → α → Prop)] {a x : α} {l : List α} :
    x ∈ insertAscending a l ↔ x = a ∨ x ∈ l := by
  refine ⟨mem_of_mem_insertAscending, ?_⟩
  rintro (rfl | h)
  · induction l with
    | nil => simp [insertAscending]
    | cons b rest ih =>
      simp only [insertAscending]
      split
      · simp
      · next hab =>
        split
        · exact List.mem_cons_of_mem _ ih
        · next hba => simp [Std.Trichotomous.trichotomous _ _ hab hba]
  · exact mem_insertAscending_of_mem h

/-! ## The type of sorted sets -/

/-- A finite set, listed in strictly ascending order. -/
structure SortedSet (α : Type) [LT α] where
  /-- The elements, ascending and without repetition. -/
  toList : List α
  /-- Each element is below all that follow it. -/
  ascending : toList.Pairwise (· < ·)

namespace SortedSet

omit [DecidableLT α] in
/-- A sorted set is determined by its list. -/
@[ext] theorem ext {s t : SortedSet α} (h : s.toList = t.toList) : s = t := by
  cases s; cases t; simp_all

instance [DecidableEq α] : DecidableEq (SortedSet α) := fun s t =>
  if h : s.toList = t.toList then isTrue (ext h) else isFalse fun e => h (congrArg toList e)

instance : EmptyCollection (SortedSet α) := ⟨⟨[], List.Pairwise.nil⟩⟩

instance : Inhabited (SortedSet α) := ⟨∅⟩

instance : Membership α (SortedSet α) := ⟨fun s a => a ∈ s.toList⟩

/-- The set of one element. -/
def singleton (a : α) : SortedSet α := ⟨[a], by simp⟩

/-- Whether the set has no element. -/
def isEmpty (s : SortedSet α) : Bool := s.toList.isEmpty

/-- The number of elements. -/
def size (s : SortedSet α) : Nat := s.toList.length

/-- The element of a set that has exactly one. -/
def only? (s : SortedSet α) : Option α :=
  match s.toList with
  | [a] => some a
  | _ => none

variable [Trans (LT.lt : α → α → Prop) LT.lt LT.lt]

/-- The set with one more element. -/
def insert (s : SortedSet α) (a : α) : SortedSet α :=
  ⟨insertAscending a s.toList, pairwise_insertAscending a s.ascending⟩

/-- The set of the elements of a list. -/
def ofList (l : List α) : SortedSet α := l.foldl insert ∅

/-- The elements of either set. -/
def union (s t : SortedSet α) : SortedSet α := t.toList.foldl insert s

/-- The images of the elements. -/
def map {β : Type} [LT β] [DecidableLT β] [Trans (LT.lt : β → β → Prop) LT.lt LT.lt] (f : α → β)
    (s : SortedSet α) : SortedSet β :=
  .ofList (s.toList.map f)

end SortedSet

end ShapeGraph
