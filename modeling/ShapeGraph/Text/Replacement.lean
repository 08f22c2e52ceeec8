/-!
# Replacing parts of a text

## Main definitions

* `replaceAll` — a text with something else in place of each occurrence of a part.

## Main results

* `replaceAll_append` — an occurrence at the front is replaced.
* `replaceAll_cons` — where no occurrence starts, the character stays.
* `replaceAll_singleton` — a single character is replaced wherever it stands.
* `head?_eq_of_replaceAll` — nothing comes to the front but what has stood there or been put in.

## Implementation notes

Occurrences are looked for from the left.  What has been put in place of one is not looked at again,
neither on its own nor together with what follows it.
-/

set_option autoImplicit false

namespace ShapeGraph

/-- The text with `new` in place of each occurrence of `old`, which must not be empty. -/
def replaceAll (old new text : List Char) : List Char := go 0 text
where
  /-- The same for the rest of a text that begins with so many characters of an occurrence. -/
  go : Nat → List Char → List Char
    | _, [] => []
    | skipped + 1, _ :: rest => go skipped rest
    | 0, c :: rest =>
      if old.isPrefixOf (c :: rest) then new ++ go (old.length - 1) rest else c :: go 0 rest

section Replacement

variable {old new : List Char}

/-- Where no occurrence starts, the character stays. -/
theorem replaceAll_cons {c : Char} {rest : List Char} (h : ¬ old <+: c :: rest) :
    replaceAll old new (c :: rest) = c :: replaceAll old new rest := by
  change replaceAll.go old new 0 (c :: rest) = c :: replaceAll.go old new 0 rest
  rw [replaceAll.go, if_neg (mt List.isPrefixOf_iff_prefix.1 h)]

/-- Behind the rest of an occurrence, replacing starts anew. -/
theorem replaceAll.go_append (skipped rest : List Char) :
    replaceAll.go old new skipped.length (skipped ++ rest) = replaceAll old new rest := by
  induction skipped with
  | nil => rfl
  | cons c skipped ih => exact ih

/-- An occurrence at the front is replaced. -/
theorem replaceAll_append (h : old ≠ []) (rest : List Char) :
    replaceAll old new (old ++ rest) = new ++ replaceAll old new rest := by
  obtain ⟨c, others, rfl⟩ := List.exists_cons_of_ne_nil h
  have hprefix : (c :: others).isPrefixOf (c :: (others ++ rest)) = true :=
    List.isPrefixOf_iff_prefix.2 (List.prefix_append (c :: others) rest)
  change replaceAll.go (c :: others) new 0 (c :: (others ++ rest)) = _
  rw [replaceAll.go, if_pos hprefix]
  exact congrArg (new ++ ·) (replaceAll.go_append others rest)

/-- A single character is replaced wherever it stands. -/
theorem replaceAll_singleton (a : Char) (text : List Char) :
    replaceAll [a] new text = text.flatMap fun c => if c = a then new else [c] := by
  induction text with
  | nil => rfl
  | cons c rest ih =>
    rw [List.flatMap_cons, ← ih]
    by_cases h : c = a
    · subst h
      rw [if_pos rfl]
      exact replaceAll_append (List.cons_ne_nil c []) rest
    · have hprefix : ¬ [a] <+: c :: rest := fun hp => h (List.cons_prefix_cons.1 hp).1.symm
      rw [if_neg h, replaceAll_cons hprefix]
      rfl

/-- What stands at the front afterwards has stood there before, unless it has been put in. -/
theorem head?_eq_of_replaceAll {a : Char} {text : List Char} (hold : old ≠ []) (hnew : new ≠ [])
    (hne : new.head? ≠ some a) (h : (replaceAll old new text).head? = some a) :
    text.head? = some a := by
  cases text with
  | nil => exact h
  | cons c rest =>
    by_cases hprefix : old <+: c :: rest
    · obtain ⟨others, hothers⟩ := hprefix
      obtain ⟨b, put, rfl⟩ := List.exists_cons_of_ne_nil hnew
      rw [← hothers, replaceAll_append hold] at h
      exact absurd h hne
    · rw [replaceAll_cons hprefix] at h
      exact h

end Replacement

end ShapeGraph
