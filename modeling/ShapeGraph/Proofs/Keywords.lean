import ShapeGraph.Conversion.Parts

/-!
# What the keywords of a schema say

The fields of a schema are read in one pass that stops at the first fault.  Here they are described
without such a pass: which values a field may have, and what it then says.

## Main definitions

* `Json.texts` — the distinct strings among some values, in the order in which they first occur.
* `Json.declaredTypes` — the types that a schema lists or implies.
* `Json.Requires` — a schema requires a property.
* `Json.TypesListed`, `Json.RequiredListed`, `Json.EnumListed` — the field has the right shape.

## Main results

* `distinctTexts_eq_ok`, `enumCases_eq_ok` — what a pass over a list gives.
* `namedTypes_eq_ok`, `requiredNames_eq_ok` — what the fields say.
* `namedTypes_eq_error`, `requiredNames_eq_error`, `enumCases_eq_error` — what is wrong otherwise.
-/

set_option autoImplicit false

namespace ShapeGraph

/-! ## Lists without repetition -/

section Distinct

variable {α : Type} [DecidableEq α]

/-- One more element at the end: the list of first occurrences grows by it, unless it is there. -/
theorem appendNew_eraseDups (l : List α) (a : α) :
    appendNew l.eraseDups a = (l ++ [a]).eraseDups := by
  unfold appendNew
  rw [List.eraseDups_append]
  by_cases h : a ∈ l
  · simp [h, List.removeAll]
  · simp [h, List.removeAll, List.eraseDups_cons]

theorem foldl_appendNew (l rest : List α) :
    rest.foldl appendNew l.eraseDups = (l ++ rest).eraseDups := by
  induction rest generalizing l with
  | nil => simp
  | cons a rest ih =>
    rw [List.foldl_cons, appendNew_eraseDups, ih, List.append_assoc]
    rfl

theorem nodup_appendNew {l : List α} (h : l.Nodup) (a : α) : (appendNew l a).Nodup := by
  unfold appendNew
  split
  · exact h
  · next ha =>
    rw [List.nodup_append]
    refine ⟨h, by simp, ?_⟩
    rintro x hx y hy rfl
    rw [List.mem_singleton] at hy
    exact ha (hy ▸ hx)

/-- First occurrences occur once. -/
theorem nodup_eraseDups (l : List α) : l.eraseDups.Nodup := by
  have hfold : ∀ (rest acc : List α), acc.Nodup → (rest.foldl appendNew acc).Nodup := by
    intro rest
    induction rest with
    | nil => exact fun _ h => h
    | cons a rest ih => exact fun acc h => ih _ (nodup_appendNew h a)
  have h := foldl_appendNew ([] : List α) l
  rw [List.nil_append] at h
  rw [← h]
  exact hfold l _ (by simp)

end Distinct

/-! ## Fields -/

namespace Json

/-- The distinct strings among some values, in the order in which they first occur. -/
def texts (items : List Json) : List String := (items.filterMap text?).eraseDups

/-- All values are strings. -/
def AllTexts (items : List Json) : Prop := ∀ item ∈ items, ∃ text, item = .str text

/-- The types that a schema lists, or the one that it implies by naming properties. -/
def declaredTypes (schema : Json) : List String :=
  match schema.get? "type" with
  | some (.str name) => [name]
  | some (.arr entries) => texts entries
  | some _ => []
  | none => if schema.has "properties" || schema.has "additionalProperties" then ["object"] else []

/-- The `type` field, if there is one, is a string or a list of strings that is not empty. -/
def TypesListed (schema : Json) : Prop :=
  ∀ field, schema.get? "type" = some field →
    (∃ name, field = .str name) ∨ ∃ entries, field = .arr entries ∧ entries ≠ [] ∧ AllTexts entries

/-- The schema lists a property as required. -/
def Requires (schema : Json) (name : String) : Prop :=
  ∃ entries, schema.get? "required" = some (.arr entries) ∧ .str name ∈ entries

/-- The `required` field, if there is one, is a list of strings. -/
def RequiredListed (schema : Json) : Prop :=
  ∀ field, schema.get? "required" = some field → ∃ entries, field = .arr entries ∧ AllTexts entries

/-- All cases of an enum are strings or null. -/
def EnumListed (cases : List Json) : Prop := ∀ case ∈ cases, case = .null ∨ ∃ text, case = .str text

/-- A string is among some values as it is among their texts. -/
theorem mem_texts {items : List Json} {text : String} : text ∈ texts items ↔ .str text ∈ items := by
  unfold texts
  rw [List.mem_eraseDups, List.mem_filterMap]
  constructor
  · rintro ⟨item, hitem, htext⟩
    cases item <;> simp only [text?] at htext <;> cases htext
    exact hitem
  · exact fun h => ⟨_, h, rfl⟩

theorem nodup_texts (items : List Json) : (texts items).Nodup := nodup_eraseDups _

theorem length_texts_le (items : List Json) : (texts items).length ≤ items.length := by
  have hle : ∀ n, ∀ l : List String, l.length ≤ n → l.eraseDups.length ≤ l.length := by
    intro n
    induction n with
    | zero =>
      intro l hl
      rw [List.length_eq_zero_iff.1 (Nat.le_zero.1 hl)]
      simp
    | succ n ih =>
      intro l hl
      cases l with
      | nil => simp
      | cons a rest =>
        rw [List.eraseDups_cons, List.length_cons, List.length_cons]
        have hfilter := List.length_filter_le (fun b => !b == a) rest
        rw [List.length_cons] at hl
        have := ih (rest.filter fun b => !b == a) (by omega)
        omega
  exact Nat.le_trans (hle _ _ (Nat.le_refl _)) (List.length_filterMap_le _ _)

/-- No type is declared twice. -/
theorem nodup_declaredTypes (schema : Json) : schema.declaredTypes.Nodup := by
  unfold declaredTypes
  split
  · simp
  · exact nodup_texts _
  · simp
  · split <;> simp

end Json

/-! ## Passes over lists -/

section Texts

variable {pass : List String → Json → Except Json.Kind (List String)}
  (hstr : ∀ texts s, pass texts (.str s) = .ok (appendNew texts s))
  (hother : ∀ texts value, value.text? = none → pass texts value = .error value.kind)

include hstr hother in
/-- Adding strings one by one gives the distinct ones among them, if no other value is met. -/
theorem foldlM_texts_eq_ok (before : List String) {names : List String} {items : List Json}
    (h : items.foldlM pass before.eraseDups = .ok names) :
    Json.AllTexts items ∧ names = (before ++ items.filterMap Json.text?).eraseDups := by
  induction items generalizing before with
  | nil =>
    cases h
    exact ⟨by simp [Json.AllTexts], by simp⟩
  | cons item rest ih =>
    rw [List.foldlM_cons] at h
    cases hitem : item.text? with
    | none =>
      rw [hother _ _ hitem] at h
      cases h
    | some s =>
      obtain rfl : item = .str s := by cases item <;> simp_all [Json.text?]
      rw [hstr, appendNew_eraseDups] at h
      obtain ⟨hall, hnames⟩ := ih _ h
      refine ⟨List.forall_mem_cons.2 ⟨⟨s, rfl⟩, hall⟩, ?_⟩
      rw [hnames, List.append_assoc]
      rfl

include hstr in
/-- Adding strings one by one does not fail. -/
theorem foldlM_texts_ne_error {before : List String} {items : List Json} {kind : Json.Kind}
    (h : items.foldlM pass before = .error kind) : ¬ Json.AllTexts items := by
  intro hall
  induction items generalizing before with
  | nil => cases h
  | cons item rest ih =>
    obtain ⟨⟨s, rfl⟩, hrest⟩ := List.forall_mem_cons.1 hall
    rw [List.foldlM_cons, hstr] at h
    exact ih h hrest

end Texts

/-- A pass over a list of strings gives those that are distinct. -/
theorem distinctTexts_eq_ok {entries : List Json} {names : List String}
    (h : distinctTexts entries = .ok names) :
    Json.AllTexts entries ∧ names = Json.texts entries := by
  unfold distinctTexts at h
  refine foldlM_texts_eq_ok (fun _ _ => rfl) ?_ [] h
  intro texts value hvalue
  cases value <;> simp_all [Json.text?]

/-- A pass over a list stops only at a value that is no string. -/
theorem distinctTexts_eq_error {entries : List Json} {kind : Json.Kind}
    (h : distinctTexts entries = .error kind) : ¬ Json.AllTexts entries := by
  unfold distinctTexts at h
  exact foldlM_texts_ne_error (fun _ _ => rfl) h

section Cases

variable {pass : List String × Bool → Json → Except Json (List String × Bool)}
  (hnull : ∀ texts nullable, pass (texts, nullable) .null = .ok (texts, true))
  (hstr : ∀ texts nullable s, pass (texts, nullable) (.str s) = .ok (appendNew texts s, nullable))
  (hother : ∀ state value, value ≠ .null → value.text? = none → pass state value = .error value)

include hnull hstr hother in
/-- Adding cases one by one gives the distinct strings among them, and whether `null` is met, if
there is no other value. -/
theorem foldlM_cases_eq_ok (before : List String) (null : Bool) {names : List String}
    {nullable : Bool} {cases : List Json}
    (h : cases.foldlM pass (before.eraseDups, null) = .ok (names, nullable)) :
    Json.EnumListed cases ∧ names = (before ++ cases.filterMap Json.text?).eraseDups ∧
      (nullable = true ↔ null = true ∨ .null ∈ cases) := by
  induction cases generalizing before null with
  | nil =>
    cases h
    exact ⟨by simp [Json.EnumListed], by simp, by simp⟩
  | cons case rest ih =>
    rw [List.foldlM_cons] at h
    cases case with
    | null =>
      rw [hnull] at h
      obtain ⟨hall, hnames, hnullable⟩ := ih _ _ h
      refine ⟨List.forall_mem_cons.2 ⟨Or.inl rfl, hall⟩, ?_, by simp [hnullable]⟩
      rw [hnames, List.filterMap_cons_none]
      rfl
    | str s =>
      rw [hstr, appendNew_eraseDups] at h
      obtain ⟨hall, hnames, hnullable⟩ := ih _ _ h
      refine ⟨List.forall_mem_cons.2 ⟨Or.inr ⟨s, rfl⟩, hall⟩, ?_, by simpa using hnullable⟩
      rw [hnames, List.append_assoc]
      rfl
    | bool _ | num _ | arr _ | obj _ =>
      rw [hother _ _ (by simp) rfl] at h
      cases h

include hnull hstr in
/-- Adding strings and `null` one by one does not fail. -/
theorem foldlM_cases_ne_error {state : List String × Bool} {cases : List Json} {case : Json}
    (h : cases.foldlM pass state = .error case) : ¬ Json.EnumListed cases := by
  intro hall
  induction cases generalizing state with
  | nil => cases h
  | cons item rest ih =>
    obtain ⟨hitem, hrest⟩ := List.forall_mem_cons.1 hall
    rw [List.foldlM_cons] at h
    rcases hitem with rfl | ⟨s, rfl⟩
    · rw [hnull] at h
      exact ih h hrest
    · rw [hstr] at h
      exact ih h hrest

end Cases

/-- A pass over the cases of an enum gives its distinct strings, and whether `null` is a case. -/
theorem enumCases_eq_ok {cases : List Json} {names : List String} {nullable : Bool}
    (h : enumCases cases = .ok (names, nullable)) :
    Json.EnumListed cases ∧ names = Json.texts cases ∧ (nullable = true ↔ .null ∈ cases) := by
  unfold enumCases at h
  have hpass := foldlM_cases_eq_ok (fun _ _ => rfl) (fun _ _ _ => rfl) ?_ [] false h
  · exact ⟨hpass.1, hpass.2.1, by simpa using hpass.2.2⟩
  · rintro ⟨texts, null⟩ value hvalue htext
    cases value <;> simp_all [Json.text?]

/-- A pass over the cases of an enum stops only at one that is neither string nor null. -/
theorem enumCases_eq_error {cases : List Json} {case : Json}
    (h : enumCases cases = .error case) : ¬ Json.EnumListed cases := by
  unfold enumCases at h
  exact foldlM_cases_ne_error (fun _ _ => rfl) (fun _ _ _ => rfl) h

/-! ## Readings of fields -/

/-- The names that a `type` field gives are those that it lists. -/
theorem typeNames_eq_ok {field : Json} {path : Reference} {names : List String}
    (h : typeNames field path = .ok names) :
    (∃ name, field = .str name ∧ names = [name]) ∨
      ∃ entries, field = .arr entries ∧ entries ≠ [] ∧ Json.AllTexts entries ∧
        names = Json.texts entries := by
  unfold typeNames at h
  split at h
  · next name =>
    cases h
    exact Or.inl ⟨name, rfl, rfl⟩
  · cases h
  · next entries hne =>
    refine Or.inr ⟨entries, rfl, fun he => hne (by rw [he]), ?_⟩
    split at h
    · next found hfound =>
      cases h
      exact distinctTexts_eq_ok hfound
    · cases h
  · cases h

/-- A `type` field is only refused when its shape is wrong. -/
theorem typeNames_eq_error {field : Json} {path : Reference} {e : Failure}
    (h : typeNames field path = .error e) :
    (∃ fault, e = .invalidType path fault) ∧ ¬ ((∃ name, field = .str name) ∨
      ∃ entries, field = .arr entries ∧ entries ≠ [] ∧ Json.AllTexts entries) := by
  unfold typeNames at h
  split at h
  · cases h
  · cases h
    exact ⟨⟨_, rfl⟩, by simp⟩
  · next entries hne =>
    split at h
    · cases h
    · next kind hkind =>
      cases h
      refine ⟨⟨_, rfl⟩, ?_⟩
      rintro (⟨name, hname⟩ | ⟨found, hfound, -, hall⟩)
      · cases hname
      · cases hfound
        exact distinctTexts_eq_error hkind hall
  · next hstr hnil harr =>
    cases h
    refine ⟨⟨_, rfl⟩, ?_⟩
    rintro (⟨name, hname⟩ | ⟨entries, hentries, -, -⟩)
    · exact hstr _ hname
    · exact harr _ hentries

/-- The types that are named are those that the schema declares. -/
theorem namedTypes_eq_ok {schema : Json} {path : Reference} {names : List String}
    (h : Conversion.namedTypes schema path = .ok names) :
    schema.TypesListed ∧ names = schema.declaredTypes := by
  unfold Conversion.namedTypes at h
  unfold Json.TypesListed Json.declaredTypes
  cases htype : schema.get? "type" with
  | none =>
    rw [htype] at h
    refine ⟨by simp, ?_⟩
    dsimp only at h ⊢
    split at h <;> cases h <;> simp_all
  | some field =>
    rw [htype] at h
    obtain ⟨name, rfl, rfl⟩ | ⟨entries, rfl, hne, hall, rfl⟩ := typeNames_eq_ok h
    · exact ⟨fun field hfield => Or.inl ⟨name, by cases hfield; rfl⟩, rfl⟩
    · exact ⟨fun field hfield => Or.inr ⟨entries, by cases hfield; rfl, hne, hall⟩, rfl⟩

/-- Types are only refused when the `type` field has the wrong shape. -/
theorem namedTypes_eq_error {schema : Json} {path : Reference} {e : Failure}
    (h : Conversion.namedTypes schema path = .error e) :
    (∃ fault, e = .invalidType path fault) ∧ ¬ schema.TypesListed := by
  unfold Conversion.namedTypes at h
  cases htype : schema.get? "type" with
  | none =>
    rw [htype] at h
    dsimp only at h
    split at h <;> cases h
  | some field =>
    rw [htype] at h
    obtain ⟨hfault, hshape⟩ := typeNames_eq_error h
    exact ⟨hfault, fun hlisted => hshape (hlisted field htype)⟩

/-- The names that are required are those that the schema lists. -/
theorem requiredNames_eq_ok {schema : Json} {path : Reference} {names : List String}
    (h : requiredNames schema path = .ok names) :
    schema.RequiredListed ∧ ∀ name, name ∈ names ↔ schema.Requires name := by
  unfold requiredNames at h
  unfold Json.RequiredListed Json.Requires
  split at h
  · next hnone =>
    cases h
    exact ⟨by simp [hnone], by simp [hnone]⟩
  · next entries hentries =>
    split at h
    · next found hfound =>
      cases h
      obtain ⟨hall, rfl⟩ := distinctTexts_eq_ok hfound
      refine ⟨fun field hfield => ⟨entries, ?_, hall⟩, fun name => ?_⟩
      · rw [hentries] at hfield
        cases hfield
        rfl
      · rw [Json.mem_texts]
        constructor
        · exact fun hname => ⟨entries, hentries, hname⟩
        · rintro ⟨others, hothers, hname⟩
          rw [hentries] at hothers
          cases hothers
          exact hname
    · cases h
  · cases h

/-- The `required` field is only refused when its shape is wrong. -/
theorem requiredNames_eq_error {schema : Json} {path : Reference} {e : Failure}
    (h : requiredNames schema path = .error e) :
    (∃ fault, e = .invalidRequired path fault) ∧ ¬ schema.RequiredListed := by
  unfold requiredNames at h
  split at h
  · cases h
  · next entries hentries =>
    split at h
    · cases h
    · next kind hkind =>
      cases h
      refine ⟨⟨_, rfl⟩, fun hlisted => ?_⟩
      obtain ⟨found, hfound, hall⟩ := hlisted _ hentries
      cases hfound
      exact distinctTexts_eq_error hkind hall
  · next field harr hfield =>
    cases h
    refine ⟨⟨_, rfl⟩, fun hlisted => ?_⟩
    obtain ⟨entries, hentries, -⟩ := hlisted field hfield
    exact harr entries hentries

end ShapeGraph
