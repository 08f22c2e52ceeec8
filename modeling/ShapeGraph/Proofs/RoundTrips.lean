import Mathlib.Data.List.TakeWhile
import ShapeGraph.Proofs.Escapes
import ShapeGraph.Reference.Parser

/-!
# References and their texts

Writing a reference and reading the text again gives the reference, except where the text of its steps
means something else: a step that has no text of its own, a key that looks like the root or like the
beginning of a definition, and a single empty key, which leaves nothing but the root.  Reading never
gives rise to such steps, so everything that has been read is written faithfully.

## Main definitions

* `PathElement.pieces` — the segments that an element is written as.
* `Reference.Legible` — steps that can be read off their segments.

## Main results

* `Reference.elementsOf_pieces` — legible steps are read off their segments.
* `Reference.legible_elementsOf` — whatever is read is legible.
* `Reference.parse_render_iff` — which references are written faithfully.
* `Reference.parse_render_parse` — everything that has been read is.

## Design

Both directions are about segments.  That a text is cut into the segments that it has been glued
together from holds because no segment contains a slash, which is what escaping is for.
-/

set_option autoImplicit false

namespace ShapeGraph

/-! ## Cutting and gluing -/

/-- Apart from slashes, glued pieces contain what the pieces contain. -/
theorem mem_intercalate_iff {c : Char} (hc : c ≠ '/') (pieces : List String) :
    c ∈ ("/".intercalate pieces).toList ↔ ∃ p ∈ pieces, c ∈ p.toList := by
  induction pieces with
  | nil => simp
  | cons p rest ih =>
    cases rest with
    | nil => simp
    | cons q rest =>
      have hglued : c ∈ ("/".intercalate (p :: q :: rest)).toList ↔
          c ∈ p.toList ∨ c ∈ ("/".intercalate (q :: rest)).toList := by
        simp [String.intercalate_cons_cons, hc]
      rw [hglued, ih]
      simp

theorem joinSegments_eq_intercalate (pieces : List String) :
    joinSegments '/' pieces = "/".intercalate pieces := by
  apply String.toList_injective
  unfold joinSegments
  rw [String.toList_ofList, String.toList_intercalate]
  rfl

/-- Cutting undoes gluing, if the pieces are free of slashes. -/
theorem segments_intercalate {pieces : List String} (hne : pieces ≠ [])
    (h : ∀ p ∈ pieces, '/' ∉ p.toList) : segments '/' ("/".intercalate pieces) = pieces := by
  unfold segments
  rw [String.toList_intercalate]
  have hsplit : List.splitOn '/' (['/'].intercalate (pieces.map String.toList)) =
      pieces.map String.toList := by
    refine List.splitOn_intercalate '/' (fun cs hcs => ?_) (by simpa using hne)
    obtain ⟨p, hp, rfl⟩ := List.mem_map.1 hcs
    exact h p hp
  change (List.splitOn '/' (['/'].intercalate (pieces.map String.toList))).map String.ofList = pieces
  rw [hsplit, List.map_map]
  simp [Function.comp_def]

theorem splitFirst_eq_none_iff {sep : Char} {s : String} :
    splitFirst sep s = none ↔ sep ∉ s.toList := by
  unfold splitFirst
  split
  · next hnil =>
    rw [List.dropWhile_eq_nil_iff] at hnil
    refine iff_of_true rfl fun hmem => ?_
    simpa using hnil sep hmem
  · next c after hcons =>
    refine iff_of_false (by simp) fun hnot => ?_
    have hnil : s.toList.dropWhile (· != sep) = [] := by
      rw [List.dropWhile_eq_nil_iff]
      rintro c hc
      have hne : c ≠ sep := by
        rintro rfl
        exact hnot hc
      simpa using hne
    rw [hnil] at hcons
    cases hcons

/-- The segments that an element is written as. -/
def PathElement.pieces : PathElement → List String
  | .root => ["#"]
  | .definition name => ["definitions", Pointer.escape name]
  | .key name => [Pointer.escape name]
  | .typeBranch i => ["type", toString i]
  | .object => ["object"]
  | .branch c i => [c.keyword, toString i]

theorem PathElement.pieces_ne_nil (e : PathElement) : e.pieces ≠ [] := by
  cases e <;> simp [pieces]

theorem PathElement.render_eq (e : PathElement) : e.render = "/".intercalate e.pieces := by
  cases e <;> simp [render, pieces, String.intercalate_cons_cons]

namespace Reference

theorem flatMap_pieces_ne_nil {elements : List PathElement} (h : elements ≠ []) :
    elements.flatMap PathElement.pieces ≠ [] := by
  cases elements with
  | nil => exact absurd rfl h
  | cons e rest => simp [e.pieces_ne_nil]

/-- A reference is written as the segments of its steps, with slashes between them. -/
theorem render_eq (r : Reference) :
    r.render = "/".intercalate (r.elements.flatMap PathElement.pieces) := by
  unfold render
  induction r.elements with
  | nil => rfl
  | cons e rest ih =>
    rw [List.map_cons, List.flatMap_cons, e.render_eq]
    by_cases hrest : rest = []
    · subst hrest
      simp
    · rw [String.intercalate_cons_of_ne_nil (by simpa using hrest), ih,
        String.intercalate_append_of_ne_nil e.pieces_ne_nil (flatMap_pieces_ne_nil hrest)]

/-! ## Legible steps -/

/-- Steps that can be read off their segments: to the root, to a definition or by a key, none of the
keys being taken for the root or for the beginning of a definition. -/
def Legible : List PathElement → Prop
  | [] => True
  | .root :: rest | .definition _ :: rest => Legible rest
  | .key key :: rest => key ≠ "#" ∧ (key = "definitions" → rest = []) ∧ Legible rest
  | .typeBranch _ :: _ | .object :: _ | .branch _ _ :: _ => False

/-- Which steps are legible, said of the steps one by one. -/
theorem legible_iff (elements : List PathElement) :
    Legible elements ↔ (∀ i, .typeBranch i ∉ elements) ∧ .object ∉ elements ∧
      (∀ c i, .branch c i ∉ elements) ∧ .key "#" ∉ elements ∧
        .key "definitions" ∉ elements.dropLast := by
  induction elements with
  | nil => simp [Legible]
  | cons e rest ih =>
    cases e with
    | typeBranch i => exact iff_of_false id fun h => h.1 i List.mem_cons_self
    | object => exact iff_of_false id fun h => h.2.1 List.mem_cons_self
    | branch c i => exact iff_of_false id fun h => h.2.2.1 c i List.mem_cons_self
    | root | definition name =>
      cases rest with
      | nil => simp [Legible]
      | cons first more =>
        rw [Legible, ih]
        simp
    | key key =>
      cases rest with
      | nil => simp [Legible, eq_comm]
      | cons first more =>
        rw [Legible, ih]
        grind [List.dropLast_cons_cons]

/-- Whatever is read is legible. -/
theorem legible_elementsOf (pieces : List String) : Legible (elementsOf pieces) := by
  fun_induction elementsOf pieces with
  | case1 => trivial
  | case2 s =>
    split
    · trivial
    · next hs => exact ⟨by rwa [Ne, Pointer.unescape_eq_iff (by decide) (by decide)], by simp, trivial⟩
  | case3 t rest ih => exact ih
  | case4 t rest hs ih => exact ih
  | case5 s t rest hroot hdefinitions ih =>
    refine ⟨by rwa [Ne, Pointer.unescape_eq_iff (by decide) (by decide)], fun h => ?_, ih⟩
    rw [Pointer.unescape_eq_iff (by decide) (by decide)] at h
    exact absurd h hdefinitions

/-- What is read off some segments is written as the same segments, with canonical escapes. -/
theorem flatMap_pieces_elementsOf (pieces : List String) :
    (elementsOf pieces).flatMap PathElement.pieces =
      pieces.map fun p => Pointer.escape (Pointer.unescape p) := by
  have hroot : Pointer.escape (Pointer.unescape "#") = "#" := rfl
  have hdefinitions : Pointer.escape (Pointer.unescape "definitions") = "definitions" := rfl
  fun_induction elementsOf pieces with
  | case1 => rfl
  | case2 s =>
    split
    · next hs => simp [hs, hroot, PathElement.pieces]
    · simp [PathElement.pieces]
  | case3 t rest ih => simp [ih, hroot, PathElement.pieces]
  | case4 t rest hs ih => simp [ih, hdefinitions, PathElement.pieces]
  | case5 s t rest _ _ ih => simp [ih, PathElement.pieces]

/-- Legible steps are read off their segments.

**Proof sketch.** Induction on the steps.  The segment of a key is taken for the key, unless it reads
`definitions` and another segment follows; then it is the last step, and no other follows. -/
theorem elementsOf_pieces {elements : List PathElement} (h : Legible elements) :
    elementsOf (elements.flatMap PathElement.pieces) = elements := by
  induction elements with
  | nil => rfl
  | cons e rest ih =>
    rw [List.flatMap_cons]
    cases e with
    | typeBranch | object | branch => exact h.elim
    | root =>
      have hrest := ih h
      cases hpieces : rest.flatMap PathElement.pieces with
      | nil =>
        rw [hpieces] at hrest
        simp [PathElement.pieces, elementsOf, ← hrest]
      | cons t more =>
        rw [hpieces] at hrest
        simp [PathElement.pieces, elementsOf, hrest]
    | definition name => simp [PathElement.pieces, elementsOf, ih h]
    | key key =>
      obtain ⟨hroot, hdefinitions, hlegible⟩ := h
      have hrest := ih hlegible
      have hroot : Pointer.escape key ≠ "#" := by
        rwa [Ne, Pointer.escape_eq_iff (by decide) (by decide)]
      cases hpieces : rest.flatMap PathElement.pieces with
      | nil =>
        rw [hpieces] at hrest
        simp [PathElement.pieces, elementsOf, ← hrest, hroot]
      | cons t more =>
        have hdefinitions : Pointer.escape key ≠ "definitions" := by
          rw [Ne, Pointer.escape_eq_iff (by decide) (by decide)]
          rintro rfl
          rw [hdefinitions rfl] at hpieces
          cases hpieces
        rw [hpieces] at hrest
        simp [PathElement.pieces, elementsOf, hrest, hroot, hdefinitions]

/-- Legible steps are written without slashes inside the segments. -/
theorem slash_not_mem_pieces {elements : List PathElement} (h : Legible elements) :
    ∀ p ∈ elements.flatMap PathElement.pieces, '/' ∉ p.toList := by
  rw [← elementsOf_pieces h, flatMap_pieces_elementsOf]
  intro p hp
  obtain ⟨segment, -, rfl⟩ := List.mem_map.1 hp
  exact Pointer.slash_not_mem_escape _

/-- Legible steps are read off the text of a reference. -/
theorem parsePointer_render {r : Reference} (h : Legible r.elements) (hne : r.elements ≠ []) :
    parsePointer r.render = r.elements := by
  unfold parsePointer
  rw [render_eq, segments_intercalate (flatMap_pieces_ne_nil hne) (slash_not_mem_pieces h),
    elementsOf_pieces h]

theorem elementsOf_ne_nil {pieces : List String} (h : pieces ≠ []) : elementsOf pieces ≠ [] := by
  fun_cases elementsOf pieces with
  | case1 => exact absurd rfl h
  | case2 | case3 | case4 | case5 => simp

/-! ## References from the root -/

/-- A text that starts with a hash leads from the root of the document that it stands in. -/
theorem parse_hash (base fragment : String) :
    parse base ("#" ++ fragment) = ⟨base, .root :: if dropLeadingSlash fragment = "" then []
      else parsePointer (dropLeadingSlash fragment)⟩ := by
  have hsplit : splitFirst '#' ("#" ++ fragment) = some ("", fragment) := by
    simp [splitFirst]
  unfold parse
  rw [hsplit]
  simp

/-- The text of a reference from the root, read in its document. -/
theorem parse_render_root (address : String) (rest : List PathElement) :
    parse address (render ⟨address, .root :: rest⟩) = ⟨address, .root ::
      if render ⟨address, rest⟩ = "" then [] else parsePointer (render ⟨address, rest⟩)⟩ := by
  cases rest with
  | nil => exact parse_hash address ""
  | cons e rest =>
    have hrender : render ⟨address, .root :: e :: rest⟩ =
        "#" ++ ("/" ++ render ⟨address, e :: rest⟩) := by
      unfold render
      rw [List.map_cons, String.intercalate_cons_of_ne_nil (by simp), String.append_assoc]
      rfl
    have hdrop : dropLeadingSlash ("/" ++ render ⟨address, e :: rest⟩) =
        render ⟨address, e :: rest⟩ := by
      simp [dropLeadingSlash]
    rw [hrender, parse_hash, hdrop]

/-- A reference from the root is written faithfully just in case its steps are legible and there is
more to them than an empty key. -/
theorem parse_render_root_iff (address : String) (rest : List PathElement) :
    parse address (render ⟨address, .root :: rest⟩) = ⟨address, .root :: rest⟩ ↔
      Legible rest ∧ rest ≠ [.key ""] := by
  rw [parse_render_root, mk.injEq, List.cons.injEq, and_iff_right rfl, and_iff_right rfl]
  constructor
  · intro h
    constructor
    · rw [← h]
      split
      · trivial
      · exact legible_elementsOf _
    · rintro rfl
      cases h
  · rintro ⟨hlegible, hempty⟩
    by_cases hrest : rest = []
    · subst hrest
      rfl
    · have hread := parsePointer_render (r := ⟨address, rest⟩) hlegible hrest
      rw [if_neg, hread]
      intro htext
      rw [htext] at hread
      exact hempty hread.symm

/-! ## References from where they stand -/

/-- A text without a hash leads from where it stands. -/
theorem parse_of_hash_not_mem (base : String) {text : String} (h : '#' ∉ text.toList) :
    parse base text = ⟨base, parsePointer text⟩ := by
  unfold parse
  rw [splitFirst_eq_none_iff.2 h]

/-- A text without a hash gives rise to steps that are written without one. -/
theorem hash_not_mem_render {address text : String} (h : '#' ∉ text.toList) :
    '#' ∉ (render ⟨address, parsePointer text⟩).toList := by
  rw [render_eq, mem_intercalate_iff (by decide)]
  rintro ⟨p, hp, hhash⟩
  unfold parsePointer at hp
  rw [flatMap_pieces_elementsOf] at hp
  obtain ⟨segment, hsegment, rfl⟩ := List.mem_map.1 hp
  refine h ?_
  rw [← joinSegments_segments '/' text, joinSegments_eq_intercalate,
    mem_intercalate_iff (by decide)]
  exact ⟨segment, hsegment, Pointer.hash_mem_of_mem_escape_unescape hhash⟩

/-- Only the empty text is read as a single empty key. -/
theorem eq_empty_of_parsePointer_eq {pointer : String} (h : parsePointer pointer = [.key ""]) :
    pointer = "" := by
  have hpieces := flatMap_pieces_elementsOf (segments '/' pointer)
  unfold parsePointer at h
  rw [h] at hpieces
  obtain ⟨segment, hsegment, hempty⟩ := List.map_eq_singleton_iff.1 hpieces.symm
  rw [Pointer.escape_eq_iff (by decide) (by decide),
    Pointer.unescape_eq_iff (by decide) (by decide)] at hempty
  rw [← joinSegments_segments '/' pointer, hsegment, hempty]
  rfl

/-! ## Main results -/

/-- Whether a word contains a slash, a tilde, a percent sign, a digit, or a hash beside other
characters. -/
def isMarked (word : String) : Bool :=
  word.toList.any fun c => c = '/' || c = '~' || c = '%' || c.isDigit || (c = '#' && 1 < word.length)

/-- A reference from the root is written faithfully just in case it has no steps to a type, to the
object type or to a sub-schema of a combinator, no key `#`, no key `definitions` but the last, and is
more than an empty key from the root.  In particular all names of definitions and all marked keys are
written faithfully. -/
theorem parse_render_iff {r : Reference} (hroot : r.elements.head? = some .root) :
    (parse r.address r.render = r ↔
      (∀ i, .typeBranch i ∉ r.elements) ∧ .object ∉ r.elements ∧ (∀ c i, .branch c i ∉ r.elements) ∧
      .key "#" ∉ r.elements ∧ .key "definitions" ∉ r.elements.dropLast ∧
      r.elements ≠ [.root, .key ""]) ∧
    ((∀ e ∈ r.elements, e = .root ∨ (∃ name, e = .definition name) ∨
      ∃ key, e = .key key ∧ isMarked key = true) → parse r.address r.render = r) := by
  obtain ⟨address, elements⟩ := r
  obtain ⟨rest, rfl⟩ := List.head?_eq_some_iff.1 hroot
  have hiff : parse address (render ⟨address, .root :: rest⟩) = ⟨address, .root :: rest⟩ ↔
      Legible (.root :: rest) ∧ rest ≠ [.key ""] := parse_render_root_iff address rest
  refine ⟨?_, fun hmarked => ?_⟩
  · rw [hiff, legible_iff]
    simp only [and_assoc, ne_eq, List.cons.injEq, true_and]
  · have hkey : ∀ key, .key key ∈ PathElement.root :: rest → isMarked key = true := by
      intro key hmem
      rcases hmarked _ hmem with heq | ⟨name, heq⟩ | ⟨other, heq, hother⟩
      · cases heq
      · cases heq
      · cases heq
        exact hother
    rw [hiff, legible_iff]
    refine ⟨⟨fun i hmem => ?_, fun hmem => ?_, fun c i hmem => ?_, fun hmem => ?_, fun hmem => ?_⟩, ?_⟩
    · simpa using hmarked _ hmem
    · simpa using hmarked _ hmem
    · simpa using hmarked _ hmem
    · exact absurd (hkey _ hmem) (by decide)
    · exact absurd (hkey _ (List.dropLast_subset _ hmem)) (by decide)
    · rintro rfl
      exact absurd (hkey "" (by simp)) (by decide)

/-- A definition with a slash in its name, and below it a key with a tilde and another one that is
`definitions`, but the last. -/
theorem parse_render_iff_definitions :
    let r : Reference := ⟨"pets.json", [.root, .definition "a/b", .key "~1", .key "definitions"]⟩
    r.elements.head? = some .root ∧ r.render = "#/definitions/a~1b/~01/definitions" ∧
      parse "pets.json" "#/definitions/a~1b/~01/definitions" = r := by
  intro r
  have hroot : r.elements.head? = some .root := rfl
  have hrender : r.render = "#/definitions/a~1b/~01/definitions" := by decide +kernel
  refine ⟨hroot, hrender, ?_⟩
  rw [← hrender]
  exact (parse_render_iff hroot).1.2 (by simp [r])

/-- Whatever text has been read in whatever document, writing the reference and reading the text of it
gives the same reference.

**Proof sketch.** The steps that have been read are legible.  If they start from the root, they are not
a single empty key, because an empty pointer is not cut into segments; otherwise no hash has been in the
text, and none is in the text that is written. -/
theorem parse_render_parse (base text : String) :
    parse (parse base text).address (parse base text).render = parse base text := by
  cases hsplit : splitFirst '#' text with
  | none =>
    have hhash : '#' ∉ text.toList := splitFirst_eq_none_iff.1 hsplit
    have hne : parsePointer text ≠ [] := elementsOf_ne_nil (segments_ne_nil '/' text)
    have hread : parsePointer (render ⟨base, parsePointer text⟩) = parsePointer text :=
      parsePointer_render (r := ⟨base, parsePointer text⟩) (legible_elementsOf _) hne
    rw [parse_of_hash_not_mem base hhash]
    dsimp only
    rw [parse_of_hash_not_mem base (hash_not_mem_render hhash), hread]
  | some halves =>
    obtain ⟨before, fragment⟩ := halves
    have hread : ∃ address, parse base text = ⟨address, .root ::
        if dropLeadingSlash fragment = "" then [] else parsePointer (dropLeadingSlash fragment)⟩ := by
      unfold parse
      rw [hsplit]
      exact ⟨_, rfl⟩
    obtain ⟨address, hread⟩ := hread
    rw [hread, parse_render_root_iff]
    split
    · exact ⟨trivial, by simp⟩
    · next hpointer =>
      exact ⟨legible_elementsOf _, fun h => hpointer (eq_empty_of_parsePointer_eq h)⟩

end Reference

end ShapeGraph
