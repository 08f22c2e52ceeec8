import Mathlib.Data.Set.Function
import ShapeGraph.Reference.Escape

/-!
# Escaped segments and the keys they stand for

A key is written in two passes over its text, and a segment is read in two passes over its own.  What
the first pass puts in could make the second one see what has not been there.  The order of the passes
rules this out, in both directions: the two passes do what a single one from the left would do.  From
this it follows which segments are written at all, and that each of them stands for one key only.

## Main definitions

* `Pointer.escapeChars`, `Pointer.unescapeChars` — writing and reading in a single pass.
* `Pointer.IsCanonical` — no slash, and every tilde is followed by `0` or `1`.

## Main results

* `Pointer.toList_escape`, `Pointer.toList_unescape` — two passes are a single one.
* `Pointer.unescape_escape` — reading a key undoes writing it.
* `Pointer.escape_canonical` — writing is a bijection from the keys to the canonical segments.
-/

set_option autoImplicit false

namespace ShapeGraph

namespace Pointer

/-! ## Writing in a single pass -/

/-- How one character of a key is written. -/
def escapeChar (c : Char) : List Char :=
  if c = '~' then ['~', '0'] else if c = '/' then ['~', '1'] else [c]

/-- The characters of a segment that stands for a key. -/
def escapeChars (key : List Char) : List Char := key.flatMap escapeChar

theorem escapeChars_cons (c : Char) (key : List Char) :
    escapeChars (c :: key) = escapeChar c ++ escapeChars key :=
  List.flatMap_cons

/-- Slashes are escaped after tildes, so that no tilde of an escape is escaped. -/
theorem toList_escape (key : String) : (escape key).toList = escapeChars key.toList := by
  unfold escape escapeChars
  rw [String.toList_ofList, replaceAll_singleton, replaceAll_singleton, List.flatMap_assoc]
  refine congrArg (List.flatMap · key.toList) (funext fun c => ?_)
  unfold escapeChar
  by_cases htilde : c = '~'
  · rw [if_pos htilde, if_pos htilde]
    rfl
  · rw [if_neg htilde, if_neg htilde, List.flatMap_singleton]

/-! ## Reading in a single pass -/

/-- The characters of the key that a segment stands for. -/
def unescapeChars : List Char → List Char
  | '~' :: '1' :: rest => '/' :: unescapeChars rest
  | '~' :: '0' :: rest => '~' :: unescapeChars rest
  | c :: rest => c :: unescapeChars rest
  | [] => []

/-- Only a tilde can start an escape. -/
theorem unescapeChars_cons {c : Char} (h : c ≠ '~') (rest : List Char) :
    unescapeChars (c :: rest) = c :: unescapeChars rest := by
  rw [unescapeChars]
  · rintro _ rfl _
    exact h rfl
  · rintro _ rfl _
    exact h rfl

/-- A pair of characters that a text begins with. -/
theorem pair_prefix_iff {a b c : Char} {rest : List Char} :
    [a, b] <+: c :: rest ↔ a = c ∧ rest.head? = some b := by
  cases rest <;> simp [List.cons_prefix_cons, eq_comm]

/-- Tildes are read after slashes.  No digit has come to stand behind a tilde by then, and no slash has
been made out of a tilde that has just been read.

**Proof sketch.** Induction along the single pass.  Behind a tilde that starts no escape stands no `0`,
and the pass that reads slashes brings none there: what it puts in is a slash. -/
theorem replaceAll_replaceAll (segment : List Char) :
    replaceAll ['~', '0'] ['~'] (replaceAll ['~', '1'] ['/'] segment) = unescapeChars segment := by
  fun_induction unescapeChars segment with
  | case1 rest ih =>
    have hfirst : replaceAll ['~', '1'] ['/'] ('~' :: '1' :: rest) =
        '/' :: replaceAll ['~', '1'] ['/'] rest := replaceAll_append (by simp) rest
    rw [hfirst, replaceAll_cons (by simp), ih]
  | case2 rest ih =>
    have hfirst : replaceAll ['~', '1'] ['/'] ('~' :: '0' :: rest) =
        '~' :: '0' :: replaceAll ['~', '1'] ['/'] rest := by
      rw [replaceAll_cons (by simp), replaceAll_cons (by simp)]
    have hsecond (others : List Char) : replaceAll ['~', '0'] ['~'] ('~' :: '0' :: others) =
        '~' :: replaceAll ['~', '0'] ['~'] others := replaceAll_append (by simp) others
    rw [hfirst, hsecond, ih]
  | case3 c rest hslash htilde ih =>
    have hfirst : ¬ ['~', '1'] <+: c :: rest := by
      rintro ⟨others, hothers⟩
      cases hothers
      exact hslash others rfl rfl
    have hsecond : ¬ ['~', '0'] <+: c :: replaceAll ['~', '1'] ['/'] rest := by
      rw [pair_prefix_iff]
      rintro ⟨rfl, hzero⟩
      have hhead := head?_eq_of_replaceAll (by simp) (by simp) (by simp) hzero
      obtain ⟨others, rfl⟩ := List.head?_eq_some_iff.1 hhead
      exact htilde others rfl rfl
    rw [replaceAll_cons hfirst, replaceAll_cons hsecond, ih]
  | case4 => rfl

theorem toList_unescape (segment : String) :
    (unescape segment).toList = unescapeChars segment.toList := by
  unfold unescape
  rw [String.toList_ofList, replaceAll_replaceAll]

/-! ## Reading what has been written -/

theorem unescapeChars_escapeChars (key : List Char) : unescapeChars (escapeChars key) = key := by
  induction key with
  | nil => rfl
  | cons c rest ih =>
    rw [escapeChars_cons]
    by_cases htilde : c = '~'
    · subst htilde
      simp [escapeChar, unescapeChars, ih]
    · by_cases hslash : c = '/'
      · subst hslash
        simp [escapeChar, unescapeChars, ih]
      · have hc : escapeChar c = [c] := by simp [escapeChar, htilde, hslash]
        rw [hc, List.singleton_append, unescapeChars_cons htilde, ih]

/-- Reading a key undoes writing it. -/
@[simp] theorem unescape_escape (key : String) : unescape (escape key) = key := by
  rw [← String.toList_inj, toList_unescape, toList_escape, unescapeChars_escapeChars]

theorem slash_not_mem_escapeChar (c : Char) : '/' ∉ escapeChar c := by
  unfold escapeChar
  split
  · simp
  · split
    · simp
    · next hslash => exact fun hmem => hslash (List.mem_singleton.1 hmem).symm

/-- A key is written without slashes. -/
theorem slash_not_mem_escape (key : String) : '/' ∉ (escape key).toList := by
  rw [toList_escape]
  intro hmem
  obtain ⟨c, -, hc⟩ := List.mem_flatMap.1 hmem
  exact slash_not_mem_escapeChar c hc

/-! ## Words without escapes -/

theorem eq_of_unescapeChars_eq {segment word : List Char} (htilde : '~' ∉ word)
    (hslash : '/' ∉ word) (h : unescapeChars segment = word) : segment = word := by
  fun_induction unescapeChars segment generalizing word with
  | case1 rest ih => simp [← h] at hslash
  | case2 rest ih => simp [← h] at htilde
  | case3 c rest _ _ ih =>
    subst h
    rw [List.mem_cons, not_or] at htilde hslash
    rw [← ih htilde.2 hslash.2 rfl]
  | case4 => exact h

theorem unescapeChars_of_not_mem {word : List Char} (htilde : '~' ∉ word) :
    unescapeChars word = word := by
  induction word with
  | nil => rfl
  | cons c rest ih =>
    rw [List.mem_cons, not_or] at htilde
    rw [unescapeChars_cons (Ne.symm htilde.1), ih htilde.2]

/-- A word without tildes and slashes is read off no other segment. -/
theorem unescape_eq_iff {segment word : String} (htilde : '~' ∉ word.toList)
    (hslash : '/' ∉ word.toList) : unescape segment = word ↔ segment = word := by
  rw [← String.toList_inj, ← String.toList_inj, toList_unescape]
  constructor
  · exact eq_of_unescapeChars_eq htilde hslash
  · intro h
    rw [h, unescapeChars_of_not_mem htilde]

/-- No other key is written like a word without tildes and slashes. -/
theorem escape_eq_iff {key word : String} (htilde : '~' ∉ word.toList)
    (hslash : '/' ∉ word.toList) : escape key = word ↔ key = word := by
  rw [← unescape_eq_iff htilde hslash, unescape_escape]

/-! ## Hashes -/

theorem hash_mem_of_mem_unescapeChars {segment : List Char} (h : '#' ∈ unescapeChars segment) :
    '#' ∈ segment := by
  fun_induction unescapeChars segment with
  | case1 rest ih => simp_all
  | case2 rest ih => simp_all
  | case3 c rest _ _ ih =>
    rcases List.mem_cons.1 h with heq | hrest
    · exact heq ▸ List.mem_cons_self
    · exact List.mem_cons_of_mem c (ih hrest)
  | case4 => exact h

theorem hash_mem_of_mem_escapeChars {key : List Char} (h : '#' ∈ escapeChars key) : '#' ∈ key := by
  obtain ⟨c, hmem, hc⟩ := List.mem_flatMap.1 h
  unfold escapeChar at hc
  split at hc
  · simp at hc
  · split at hc
    · simp at hc
    · rwa [List.mem_singleton.1 hc]

/-- Reading a segment and writing it again brings in no hash. -/
theorem hash_mem_of_mem_escape_unescape {segment : String}
    (h : '#' ∈ (escape (unescape segment)).toList) : '#' ∈ segment.toList := by
  rw [toList_escape, toList_unescape] at h
  exact hash_mem_of_mem_unescapeChars (hash_mem_of_mem_escapeChars h)

/-! ## Segments that are written -/

/-- There is no slash, and every tilde is followed by `0` or `1`. -/
def IsCanonical (segment : List Char) : Prop :=
  '/' ∉ segment ∧
    ∀ i, segment[i]? = some '~' → segment[i + 1]? = some '0' ∨ segment[i + 1]? = some '1'

theorem isCanonical_cons {c : Char} {rest : List Char} :
    IsCanonical (c :: rest) ↔
      c ≠ '/' ∧ (c = '~' → rest.head? = some '0' ∨ rest.head? = some '1') ∧ IsCanonical rest := by
  unfold IsCanonical
  rw [List.mem_cons, not_or, List.head?_eq_getElem?]
  constructor
  · rintro ⟨⟨hslash, hslashes⟩, htildes⟩
    exact ⟨Ne.symm hslash, fun h => htildes 0 (congrArg some h), hslashes, fun i => htildes (i + 1)⟩
  · rintro ⟨hslash, htilde, hslashes, htildes⟩
    refine ⟨⟨Ne.symm hslash, hslashes⟩, fun i h => ?_⟩
    cases i with
    | zero => exact htilde (Option.some.inj h)
    | succ i => exact htildes i h

/-- A segment is what its key is written as just in case it is canonical.

**Proof sketch.** Induction along the pass that reads the segment.  An escape is written again as it
has been read.  A character that has been read as itself is written as itself, unless it is a slash, or
a tilde that starts no escape. -/
theorem escapeChars_unescapeChars_iff (segment : List Char) :
    escapeChars (unescapeChars segment) = segment ↔ IsCanonical segment := by
  fun_induction unescapeChars segment with
  | case1 rest ih =>
    rw [escapeChars_cons, isCanonical_cons, isCanonical_cons, ← ih]
    simp [escapeChar]
  | case2 rest ih =>
    rw [escapeChars_cons, isCanonical_cons, isCanonical_cons, ← ih]
    simp [escapeChar]
  | case3 c rest hslash htilde ih =>
    rw [escapeChars_cons, isCanonical_cons, ← ih]
    by_cases htilde' : c = '~'
    · subst htilde'
      have hzero : rest.head? ≠ some '0' := by
        intro hhead
        obtain ⟨others, rfl⟩ := List.head?_eq_some_iff.1 hhead
        exact htilde others rfl rfl
      have hone : rest.head? ≠ some '1' := by
        intro hhead
        obtain ⟨others, rfl⟩ := List.head?_eq_some_iff.1 hhead
        exact hslash others rfl rfl
      constructor
      · intro heq
        exact absurd (congrArg List.head? (List.cons.inj heq).2).symm hzero
      · rintro ⟨-, hstarts, -⟩
        exact absurd (hstarts rfl) (not_or.2 ⟨hzero, hone⟩)
    · by_cases hslash' : c = '/'
      · subst hslash'
        simp [escapeChar]
      · simp [escapeChar, htilde', hslash']
  | case4 => simp [escapeChars, IsCanonical]

/-- A segment is what its key is written as just in case it is canonical. -/
theorem escape_unescape_iff (segment : String) :
    escape (unescape segment) = segment ↔ IsCanonical segment.toList := by
  rw [← String.toList_inj, toList_escape, toList_unescape, escapeChars_unescapeChars_iff]

/-- The tilde of `~01` is an escape of its own; the first tilde of `~~0` is none, and it is written as
one afterwards. -/
example : unescape "~01" = "~1" ∧ escape (unescape "~~0") = "~0~0" := ⟨rfl, rfl⟩

/-- Keys are written without slashes and read back as they have been, and a segment that has been read
is written as it has been just in case it is canonical.  So writing is a bijection from the keys to the
canonical segments. -/
theorem escape_canonical :
    (∀ key, '/' ∉ (escape key).toList ∧ unescape (escape key) = key) ∧
      (∀ segment, escape (unescape segment) = segment ↔ IsCanonical segment.toList) ∧
        Set.BijOn escape Set.univ {segment | IsCanonical segment.toList} := by
  have hinverse : Function.LeftInverse unescape escape := unescape_escape
  refine ⟨fun key => ⟨slash_not_mem_escape key, unescape_escape key⟩, escape_unescape_iff, ?_, ?_, ?_⟩
  · intro key _
    exact (escape_unescape_iff (escape key)).1 (congrArg escape (unescape_escape key))
  · exact hinverse.injective.injOn
  · intro segment hsegment
    exact ⟨unescape segment, trivial, (escape_unescape_iff segment).2 hsegment⟩

end Pointer

end ShapeGraph
