import Mathlib.Data.List.Sort
import ShapeGraph.Order.SortedMap

/-!
# Members of sorted sets and values of sorted maps

What the operations on sorted sets and sorted maps do, seen through membership and look-up.

## Main definitions

* `SortedSet.Lists` — a set has exactly the elements of a list.

## Main results

* `SortedSet.mem_insert`, `SortedSet.mem_union`, `SortedSet.mem_singleton`, `SortedSet.mem_map`.
* `SortedSet.eq_of_mem_iff` — sets with the same elements are the same.
* `SortedMap.find?_insert` — setting the value of one key leaves all others.
* `SortedMap.find?_eq_some_iff` — looking up a key finds the entry with that key.
* `SortedMap.entries_sublist` — a map that has all values of another one lists them in the same order.
* `SortedMap.eq_of_find?_eq` — maps with the same values are the same.
-/

set_option autoImplicit false

namespace ShapeGraph

/-! ## Sorted sets -/

namespace SortedSet

variable {α : Type} [LT α]

theorem mem_def {s : SortedSet α} {a : α} : a ∈ s ↔ a ∈ s.toList := Iff.rfl

@[simp] theorem not_mem_empty (a : α) : ¬ a ∈ (∅ : SortedSet α) := by
  rw [mem_def]
  exact List.not_mem_nil

@[simp] theorem mem_singleton {a b : α} : b ∈ singleton a ↔ b = a := by
  rw [mem_def]
  exact List.mem_singleton

/-- A set without elements is the only one that is empty. -/
theorem isEmpty_iff {s : SortedSet α} : s.isEmpty = true ↔ ∀ a, ¬ a ∈ s := by
  unfold isEmpty
  rw [List.isEmpty_iff, List.eq_nil_iff_forall_not_mem]
  rfl

/-- Sets with the same elements are the same. -/
theorem eq_of_mem_iff [Std.Antisymm (LT.lt : α → α → Prop)] [Std.Irrefl (LT.lt : α → α → Prop)]
    {s t : SortedSet α} (h : ∀ a, a ∈ s ↔ a ∈ t) : s = t :=
  ext (s.ascending.eq_of_mem_iff t.ascending h)

/-- The set has exactly the elements of the list. -/
def Lists (s : SortedSet α) (l : List α) : Prop := ∀ a, a ∈ s ↔ a ∈ l

/-- The set has exactly the elements of the list or, if there are none, a single one of some other
kind. -/
def ListsOr (other : α → Prop) (s : SortedSet α) (l : List α) : Prop :=
  if l = [] then ∃ a, other a ∧ s.Lists [a] else s.Lists l

theorem lists_empty : Lists (∅ : SortedSet α) [] := by
  intro a
  simp

theorem lists_singleton (a : α) : Lists (singleton a) [a] := by
  intro b
  simp

/-- A set is empty just in case it has the elements of the empty list. -/
theorem Lists.isEmpty_iff {s : SortedSet α} {l : List α} (h : s.Lists l) :
    s.isEmpty = true ↔ l = [] := by
  rw [SortedSet.isEmpty_iff, List.eq_nil_iff_forall_not_mem]
  exact forall_congr' fun a => not_congr (h a)

theorem ListsOr.imp {other other' : α → Prop} {s : SortedSet α} {l : List α}
    (h : s.ListsOr other l) (hother : ∀ a, other a → other' a) : s.ListsOr other' l := by
  unfold ListsOr at h ⊢
  split
  · next hl =>
    rw [if_pos hl] at h
    obtain ⟨a, ha, hlists⟩ := h
    exact ⟨a, hother a ha, hlists⟩
  · next hl => rwa [if_neg hl] at h

variable [DecidableLT α] [Trans (LT.lt : α → α → Prop) LT.lt LT.lt]
  [Std.Trichotomous (LT.lt : α → α → Prop)]

@[simp] theorem mem_insert {s : SortedSet α} {a b : α} : b ∈ s.insert a ↔ b = a ∨ b ∈ s := by
  rw [mem_def]
  exact mem_insertAscending

theorem mem_foldl_insert {l : List α} {s : SortedSet α} {b : α} :
    b ∈ l.foldl insert s ↔ b ∈ s ∨ b ∈ l := by
  induction l generalizing s with
  | nil => simp
  | cons a rest ih =>
    rw [List.foldl_cons, ih, mem_insert, List.mem_cons, ← or_assoc, or_comm (a := b ∈ s)]

@[simp] theorem mem_union {s t : SortedSet α} {b : α} : b ∈ s.union t ↔ b ∈ s ∨ b ∈ t :=
  mem_foldl_insert

@[simp] theorem mem_map {β : Type} [LT β] (f : β → α) {s : SortedSet β} {b : α} :
    b ∈ s.map f ↔ ∃ a ∈ s, f a = b := by
  unfold map ofList
  rw [mem_foldl_insert, List.mem_map, or_iff_right (not_mem_empty b)]
  rfl

theorem Lists.insert {s : SortedSet α} {l : List α} (h : s.Lists l) (a : α) :
    (s.insert a).Lists (a :: l) := by
  intro b
  rw [mem_insert, h b, List.mem_cons]

theorem Lists.union {s t : SortedSet α} {l m : List α} (hs : s.Lists l) (ht : t.Lists m) :
    (s.union t).Lists (l ++ m) := by
  intro b
  rw [mem_union, hs b, ht b, List.mem_append]

end SortedSet

/-! ## Sorted maps -/

/-- What is found under a key behind one more entry. -/
theorem lookup_cons_eq_ite {κ β : Type} [BEq κ] [LawfulBEq κ] [DecidableEq κ] (k x : κ) (v : β)
    (l : List (κ × β)) : ((k, v) :: l).lookup x = if x = k then some v else l.lookup x := by
  rw [List.lookup_cons]
  by_cases h : x = k
  · rw [if_pos h, h, beq_self_eq_true]
  · rw [if_neg h, beq_eq_false_iff_ne.2 h]

section Maps

variable {κ β : Type} [LT κ] [DecidableLT κ] [DecidableEq κ] [BEq κ] [LawfulBEq κ]

/-- Setting the value of one key leaves all others. -/
theorem lookup_insertEntry [Std.Trichotomous (LT.lt : κ → κ → Prop)] (k x : κ) (v : β)
    (l : List (κ × β)) :
    (insertEntry k v l).lookup x = if x = k then some v else l.lookup x := by
  induction l with
  | nil => exact lookup_cons_eq_ite k x v []
  | cons e rest ih =>
    obtain ⟨b, w⟩ := e
    simp only [insertEntry]
    split
    · exact lookup_cons_eq_ite k x v _
    · next hkb =>
      split
      · next hbk =>
        rw [lookup_cons_eq_ite, ih, lookup_cons_eq_ite]
        apply ite_ite_comm
        rintro rfl rfl
        exact hkb hbk
      · next hbk =>
        obtain rfl : k = b := Std.Trichotomous.trichotomous _ _ hkb hbk
        rw [lookup_cons_eq_ite, lookup_cons_eq_ite]
        split_ifs <;> rfl

namespace SortedMap

variable [Trans (LT.lt : κ → κ → Prop) LT.lt LT.lt]

/-- Setting the value of one key leaves all others. -/
theorem find?_insert [Std.Trichotomous (LT.lt : κ → κ → Prop)] (m : SortedMap κ β) (k x : κ)
    (v : β) : (m.insert k v).find? x = if x = k then some v else m.find? x :=
  lookup_insertEntry k x v m.entries

/-- Of the values that are set for one key, the last one counts. -/
theorem find?_insertAll [Std.Trichotomous (LT.lt : κ → κ → Prop)] (m : SortedMap κ β)
    (l : List (κ × β)) (x : κ) :
    (m.insertAll l).find? x = (l.reverse.lookup x).or (m.find? x) := by
  unfold insertAll
  induction l generalizing m with
  | nil => rfl
  | cons e rest ih =>
    obtain ⟨k, v⟩ := e
    rw [List.foldl_cons, ih, find?_insert, List.reverse_cons, List.lookup_append, Option.or_assoc]
    by_cases h : x = k
    · simp [h]
    · have hne : (x == k) = false := by simpa using h
      simp [h, List.lookup_cons, hne]

omit [DecidableLT κ] [DecidableEq κ] [Trans (LT.lt : κ → κ → Prop) LT.lt LT.lt] in
/-- Looking up a key finds the entry with that key. -/
theorem find?_eq_some_iff [Std.Irrefl (LT.lt : κ → κ → Prop)] {m : SortedMap κ β} {k : κ} {v : β} :
    m.find? k = some v ↔ (k, v) ∈ m.entries := by
  obtain ⟨entries, hascending⟩ := m
  unfold find?
  dsimp only
  induction entries with
  | nil => simp
  | cons e rest ih =>
    obtain ⟨b, w⟩ := e
    rw [List.map_cons, List.pairwise_cons] at hascending
    rw [List.mem_cons, ← ih hascending.2]
    by_cases h : k = b
    · subst h
      have hrest : (k, v) ∉ rest := fun hmem =>
        Std.Irrefl.irrefl k (hascending.1 k (List.mem_map.2 ⟨(k, v), hmem, rfl⟩))
      simp [ih hascending.2, hrest, eq_comm]
    · have hne : (k == b) = false := by simpa using h
      simp [List.lookup_cons, h, hne]

omit [DecidableLT κ] [DecidableEq κ] [Trans (LT.lt : κ → κ → Prop) LT.lt LT.lt] in
/-- A map that has all values of another one lists them in the same order. -/
theorem entries_sublist [Std.Antisymm (LT.lt : κ → κ → Prop)] [Std.Irrefl (LT.lt : κ → κ → Prop)]
    {m n : SortedMap κ β} (h : ∀ k v, m.find? k = some v → n.find? k = some v) :
    m.entries.Sublist n.entries := by
  have hsubset : m.entries ⊆ n.entries := fun e he =>
    find?_eq_some_iff.1 (h e.1 e.2 (find?_eq_some_iff.2 he))
  have hirrefl (k : κ) : ¬ k < k := Std.Irrefl.irrefl (r := LT.lt) k
  have : Std.Irrefl fun d e : κ × β => d.1 < e.1 := ⟨fun e => hirrefl e.1⟩
  have : Std.Antisymm fun d e : κ × β => d.1 < e.1 := ⟨fun d e hde hed => by
    rw [Std.Antisymm.antisymm (r := LT.lt) d.1 e.1 hde hed] at hde
    exact absurd hde (hirrefl e.1)⟩
  have hm := List.pairwise_map.1 m.ascending
  exact List.sublist_of_subperm_of_pairwise (List.subperm_of_subset hm.nodup hsubset) hm
    (List.pairwise_map.1 n.ascending)

omit [DecidableLT κ] [DecidableEq κ] [Trans (LT.lt : κ → κ → Prop) LT.lt LT.lt] in
/-- Maps with the same values are the same. -/
theorem eq_of_find?_eq [Std.Antisymm (LT.lt : κ → κ → Prop)] [Std.Irrefl (LT.lt : κ → κ → Prop)]
    {m n : SortedMap κ β} (h : ∀ k, m.find? k = n.find? k) : m = n :=
  ext ((entries_sublist fun k _ hfind => (h k).symm.trans hfind).antisymm
    (entries_sublist fun k _ hfind => (h k).trans hfind))

end SortedMap

end Maps

end ShapeGraph
