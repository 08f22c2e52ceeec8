import ShapeGraph.Order.SortedSet

/-!
# Sorted maps

Finite maps kept as lists of entries whose keys ascend strictly, so that listing a map needs no
further sorting.  Top-level types by name and documents by address are such maps.

## Main definitions

* `insertEntry` — set the value of a key in a list with ascending keys.
* `SortedMap` — entries together with the proof that their keys ascend.
* `SortedMap.insert`, `SortedMap.find?`, `SortedMap.ofList`.

## Main results

* `pairwise_insertEntry` — setting a value keeps the keys strictly ascending.
-/

set_option autoImplicit false

namespace ShapeGraph

variable {κ β : Type} [LT κ] [DecidableLT κ]

/-! ## Entries with ascending keys -/

/-- Set the value of `k` in a list of entries with ascending keys. -/
def insertEntry (k : κ) (v : β) : List (κ × β) → List (κ × β)
  | [] => [(k, v)]
  | (b, w) :: rest =>
    if k < b then (k, v) :: (b, w) :: rest
    else if b < k then (b, w) :: insertEntry k v rest
    else (b, v) :: rest

/-- Setting a value brings in no key but the one that is set. -/
theorem key_of_mem_insertEntry {k x : κ} {v : β} {l : List (κ × β)}
    (h : x ∈ (insertEntry k v l).map Prod.fst) : x = k ∨ x ∈ l.map Prod.fst := by
  induction l with
  | nil => simpa [insertEntry] using h
  | cons e rest ih =>
    obtain ⟨b, w⟩ := e
    simp only [insertEntry] at h
    split at h
    · simpa using h
    · split at h
      · rw [List.map_cons] at h
        rcases List.mem_cons.1 h with rfl | h
        · simp
        · rcases ih h with rfl | h
          · exact Or.inl rfl
          · exact Or.inr (List.mem_cons_of_mem _ h)
      · exact Or.inr h

/-- Setting a value keeps the keys strictly ascending. -/
theorem pairwise_insertEntry [Trans (LT.lt : κ → κ → Prop) LT.lt LT.lt] (k : κ) (v : β)
    {l : List (κ × β)} (h : (l.map Prod.fst).Pairwise (· < ·)) :
    ((insertEntry k v l).map Prod.fst).Pairwise (· < ·) := by
  induction l with
  | nil => simp [insertEntry]
  | cons e rest ih =>
    obtain ⟨b, w⟩ := e
    rw [List.map_cons] at h
    have hb := List.pairwise_cons.1 h
    simp only [insertEntry]
    split
    · next hkb =>
      rw [List.map_cons]
      refine List.pairwise_cons.2 ⟨fun x hx => ?_, h⟩
      rcases List.mem_cons.1 hx with rfl | hx
      · exact hkb
      · exact Trans.trans hkb (hb.1 x hx)
    · split
      · next hbk =>
        rw [List.map_cons]
        refine List.pairwise_cons.2 ⟨fun x hx => ?_, ih hb.2⟩
        rcases key_of_mem_insertEntry hx with rfl | hx
        · exact hbk
        · exact hb.1 x hx
      · exact h

/-! ## The type of sorted maps -/

/-- A finite map, listed by strictly ascending key. -/
structure SortedMap (κ β : Type) [LT κ] where
  /-- The entries, one for each key, by ascending key. -/
  entries : List (κ × β)
  /-- Each key is below all that follow it. -/
  ascending : (entries.map Prod.fst).Pairwise (· < ·)

namespace SortedMap

omit [DecidableLT κ] in
/-- A sorted map is determined by its entries. -/
@[ext] theorem ext {m n : SortedMap κ β} (h : m.entries = n.entries) : m = n := by
  cases m; cases n; simp_all

instance [DecidableEq κ] [DecidableEq β] : DecidableEq (SortedMap κ β) := fun m n =>
  if h : m.entries = n.entries then isTrue (ext h) else isFalse fun e => h (congrArg entries e)

omit [DecidableLT κ] in
/-- Without entries there are no keys out of order. -/
theorem ascending_nil : (([] : List (κ × β)).map Prod.fst).Pairwise (· < ·) := List.Pairwise.nil

instance : EmptyCollection (SortedMap κ β) := ⟨⟨[], ascending_nil⟩⟩

instance : Inhabited (SortedMap κ β) := ⟨∅⟩

/-- The keys, ascending. -/
def keys (m : SortedMap κ β) : List κ := m.entries.map Prod.fst

/-- The number of keys. -/
def size (m : SortedMap κ β) : Nat := m.entries.length

/-- The value of a key. -/
def find? [BEq κ] (m : SortedMap κ β) (k : κ) : Option β := m.entries.lookup k

/-- Whether a key has a value. -/
def contains [BEq κ] (m : SortedMap κ β) (k : κ) : Bool := (m.find? k).isSome

variable [Trans (LT.lt : κ → κ → Prop) LT.lt LT.lt]

/-- Set the value of a key. -/
def insert (m : SortedMap κ β) (k : κ) (v : β) : SortedMap κ β :=
  ⟨insertEntry k v m.entries, pairwise_insertEntry k v m.ascending⟩

/-- Set the values of all keys of a list; of two values for one key the later counts. -/
def insertAll (m : SortedMap κ β) (l : List (κ × β)) : SortedMap κ β :=
  l.foldl (fun m e => m.insert e.1 e.2) m

/-- The map of a list of entries; of two values for one key the later counts. -/
def ofList (l : List (κ × β)) : SortedMap κ β := insertAll ∅ l

end SortedMap

end ShapeGraph
