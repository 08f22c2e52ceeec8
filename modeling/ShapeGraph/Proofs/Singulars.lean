import Mathlib.Data.List.Infix
import Mathlib.Tactic.Push
import ShapeGraph.Text.Singular

/-!
# Singulars of singulars

The singular of a word may look like a plural again, and then it has a singular of its own.  This happens
to words like `peoples`, where an `s` stands behind an irregular plural, and to no others; and it happens
only once.

## Main definitions

* `SingularRule` — what the rules make of a word, one by one.
* `IsSettled` — the word is its own singular.
* `Apart` — no word has endings from both of two lists.
* `openPlurals` — the irregular plurals that do not end in `s`.
* `ruleEndings` — the endings that rules look at, besides unchanged words and a single `s`.

## Main results

* `singularRule` — the singular of a word comes from one of the rules.
* `isSettled_of_open` — a word that ends neither in `s` nor in an irregular plural is its own singular.
* `singularLetters_of_apart` — what is left of a word with another ending.
* `isSettled_singularLetters` — the singular of a word that does not end in `s` is settled.
* `singularLetters_cases` — a singular is settled, or the word has only lost its `s`.
* `singular_settles` — which singulars have singulars of their own.

## Design

What a rule leaves of a word ends in what the rule has put there.  Of two endings of one word, one is an
ending of the other.  So two endings of which neither is can be told apart in the tables, and no word has to
be looked at.
-/

set_option autoImplicit false

namespace ShapeGraph

variable {word ending result : List Char}

/-! ## Endings -/

theorem endsIn_iff : endsIn word ending = true ↔ ending <:+ word.map Char.toLower :=
  List.isSuffixOf_iff_suffix

theorem length_le_of_endsIn (h : endsIn word ending = true) : ending.length ≤ word.length := by
  have hle := (endsIn_iff.1 h).length_le
  rwa [List.length_map] at hle

/-- A longer ending is an ending of what stands before a shorter one. -/
theorem endsIn_append_iff {before : List Char} : endsIn word (before ++ ending) = true ↔
    endsIn word ending = true ∧ endsIn (replaceLast word ending.length []) before = true := by
  unfold replaceLast
  simp only [endsIn_iff, List.append_nil]
  constructor
  · rintro ⟨start, hstart⟩
    have hlength := congrArg List.length hstart
    have htake := congrArg (List.take (word.length - ending.length)) hstart
    simp only [List.length_append, List.length_map] at hlength
    refine ⟨⟨start ++ before, by rw [← hstart, List.append_assoc]⟩, start, ?_⟩
    rw [List.map_take, ← htake, ← List.append_assoc, List.take_left']
    rw [List.length_append]
    omega
  · rintro ⟨⟨start, hstart⟩, first, hfirst⟩
    have hlength := congrArg List.length hstart
    simp only [List.length_append, List.length_map] at hlength
    have hbefore : (word.take (word.length - ending.length)).map Char.toLower = start := by
      rw [List.map_take, ← hstart, List.take_left']
      omega
    refine ⟨first, ?_⟩
    rw [← hstart, ← hbefore, ← hfirst, List.append_assoc]

theorem endsIn_replaceLast (word : List Char) (n : Nat) (ending : List Char) :
    endsIn (replaceLast word n ending) (ending.map Char.toLower) = true := by
  rw [endsIn_iff]
  unfold replaceLast
  rw [List.map_append]
  exact List.suffix_append _ _

/-- No word has an ending from one list and an ending from the other. -/
def Apart (endings others : List (List Char)) : Prop :=
  ∀ a ∈ endings, ∀ b ∈ others, ¬ a <:+ b ∧ ¬ b <:+ a

instance (endings others : List (List Char)) : Decidable (Apart endings others) :=
  inferInstanceAs (Decidable (∀ a ∈ endings, ∀ b ∈ others, ¬ a <:+ b ∧ ¬ b <:+ a))

theorem Apart.not_endsIn {endings others : List (List Char)} (h : Apart endings others)
    (hending : ending ∈ endings) (hword : endsIn word ending = true) {other : List Char}
    (hother : other ∈ others) : ¬ endsIn word other = true := by
  intro hends
  have hapart := h ending hending other hother
  rcases List.suffix_or_suffix_of_suffix (endsIn_iff.1 hword) (endsIn_iff.1 hends) with hleft | hright
  · exact hapart.1 hleft
  · exact hapart.2 hright

/-! ## The rules, one by one -/

/-- What the rules make of a word. -/
inductive SingularRule (word : List Char) : List Char → Prop
  /-- The plural in `es` of an unchanged word. -/
  | doubled {u : List Char} (hu : u ∈ unchangedWords) (hs : endsIn u ['s'] = true)
      (h : endsIn word (u ++ ['e', 's']) = true) : SingularRule word (replaceLast word 2 [])
  /-- A single letter, or an unchanged word. -/
  | unchanged (h : word.length < 2 ∨ ∃ u ∈ unchangedWords, endsIn word u = true) : SingularRule word word
  /-- An irregular plural. -/
  | irregular {p : List Char × List Char} (hp : p ∈ irregularPlurals) (h : endsIn word p.1 = true) :
      SingularRule word (replacePlural word p.1 p.2)
  /-- A plural in `ies`. -/
  | ies (h : endsIn word ['i', 'e', 's'] = true) : SingularRule word (replaceLast word 3 ['y'])
  /-- A plural in `ves`. -/
  | ves (h : endsIn word ['v', 'e', 's'] = true) : SingularRule word (replaceLast word 3 ['f'])
  /-- A plural in `es`. -/
  | sibilant {e : List Char} (he : e ∈ sibilantPlurals) (h : endsIn word e = true) :
      SingularRule word (replaceLast word 2 [])
  /-- A plural in `s`. -/
  | plain (hs : endsIn word ['s'] = true) (hss : ¬ endsIn word ['s', 's'] = true) :
      SingularRule word (replaceLast word 1 [])
  /-- No rule applies. -/
  | none (hirregular : ∀ p ∈ irregularPlurals, ¬ endsIn word p.1 = true)
      (h : endsIn word ['s'] = true → ∃ e ∈ [['s', 's'], ['u', 's'], ['i', 's']], endsIn word e = true) :
      SingularRule word word

theorem regularSingular_rule (hirregular : ∀ p ∈ irregularPlurals, ¬ endsIn word p.1 = true) :
    SingularRule word (regularSingular word) := by
  unfold regularSingular
  split
  · next h => exact .ies (Bool.and_eq_true_iff.1 h).1
  split
  · next h => exact .ves (Bool.and_eq_true_iff.1 h).1
  split
  · next h =>
    obtain ⟨e, he, hends⟩ := List.any_eq_true.1 h
    exact .sibilant he hends
  split
  · next h =>
    simp only [Bool.and_eq_true, Bool.not_eq_true'] at h
    exact .plain h.1.1.1 (Bool.eq_false_iff.1 h.1.1.2)
  · next h =>
    refine .none hirregular fun hs => ?_
    by_contra hnone
    push Not at hnone
    apply h
    simp only [List.mem_cons, List.not_mem_nil, or_false, forall_eq_or_imp, forall_eq] at hnone
    simp [hs, hnone]

/-- The singular of a word comes from one of the rules. -/
theorem singularRule (word : List Char) : SingularRule word (singularLetters word) := by
  unfold singularLetters
  split
  · next h =>
    obtain ⟨u, hu, hword⟩ := List.any_eq_true.1 h
    rw [Bool.and_eq_true, Bool.and_eq_true] at hword
    exact .doubled hu hword.1.1 hword.1.2
  split
  · next h =>
    rw [Bool.or_eq_true, decide_eq_true_iff, List.any_eq_true] at h
    exact .unchanged h
  split
  · next plural single hfind =>
    have hends := List.find?_some (p := fun p : List Char × List Char => endsIn word p.1) hfind
    exact .irregular (List.mem_of_find?_eq_some hfind) hends
  · next hfind => exact regularSingular_rule (List.find?_eq_none.1 hfind)

/-! ## Words that do not change -/

/-- The word is its own singular. -/
def IsSettled (word : List Char) : Prop := singularLetters word = word

/-- The plurals in `es` of the unchanged words that end in `s`. -/
def doubledPlurals : List (List Char) :=
  (unchangedWords.filter (endsIn · ['s'])).map (· ++ ['e', 's'])

/-- The irregular plurals that do not end in `s`. -/
def openPlurals : List (List Char) :=
  ["people".toList, "children".toList, "men".toList, "women".toList, "mice".toList, "geese".toList,
    "feet".toList, "teeth".toList, "criteria".toList, "data".toList]

theorem mem_doubledPlurals {u : List Char} (hu : u ∈ unchangedWords) (hs : endsIn u ['s'] = true) :
    u ++ ['e', 's'] ∈ doubledPlurals := List.mem_map_of_mem (List.mem_filter.2 ⟨hu, hs⟩)

/-- A word that ends in an unchanged word does not change. -/
theorem isSettled_of_unchanged {u : List Char} (hu : u ∈ unchangedWords) (h : endsIn word u = true) :
    IsSettled word := by
  have hapart : Apart unchangedWords doubledPlurals := by decide
  have hdoubled : ¬ isDoubledPlural word = true := by
    intro hdoubled
    obtain ⟨v, hv, hword⟩ := List.any_eq_true.1 hdoubled
    rw [Bool.and_eq_true, Bool.and_eq_true] at hword
    exact hapart.not_endsIn hu h (mem_doubledPlurals hv hword.1.1) hword.1.2
  have hany : unchangedWords.any (endsIn word) = true := List.any_eq_true.2 ⟨u, hu, h⟩
  unfold IsSettled singularLetters
  rw [if_neg hdoubled, hany, Bool.or_true, if_pos rfl]

/-- The only rules that apply without an `s` at the end are those for unchanged and irregular words. -/
theorem singularLetters_of_not_s (hs : ¬ endsIn word ['s'] = true) :
    (singularLetters word = word ∧
      (word.length < 2 ∨ (∃ u ∈ unchangedWords, endsIn word u = true) ∨
        ∀ p ∈ irregularPlurals, ¬ endsIn word p.1 = true)) ∨
    ∃ p ∈ irregularPlurals, endsIn word p.1 = true ∧ singularLetters word = replacePlural word p.1 p.2 := by
  have hnone (before : List Char) (h : endsIn word (before ++ ['s']) = true) : False :=
    hs (endsIn_append_iff.1 h).1
  have hrule := singularRule word
  generalize singularLetters word = result at hrule ⊢
  cases hrule with
  | @doubled u _ _ h => exact (hnone (u ++ ['e']) (by simpa using h)).elim
  | unchanged h => exact Or.inl ⟨rfl, h.imp_right Or.inl⟩
  | irregular hp h => exact Or.inr ⟨_, hp, h, rfl⟩
  | ies h => exact (hnone ['i', 'e'] h).elim
  | ves h => exact (hnone ['v', 'e'] h).elim
  | @sibilant e he h =>
    have hlast : ∀ e ∈ sibilantPlurals, e = e.dropLast ++ ['s'] := by decide
    rw [hlast e he] at h
    exact (hnone _ h).elim
  | plain h => exact absurd h hs
  | none hirregular => exact Or.inl ⟨rfl, Or.inr (Or.inr hirregular)⟩

/-- A word that ends neither in `s` nor in an irregular plural is its own singular. -/
theorem isSettled_of_open (hs : ¬ endsIn word ['s'] = true)
    (hopen : ∀ p ∈ openPlurals, ¬ endsIn word p = true) : IsSettled word := by
  rcases singularLetters_of_not_s hs with ⟨h, -⟩ | ⟨p, hp, hends, -⟩
  · exact h
  · have htable : ∀ p ∈ irregularPlurals, p.1 ∈ openPlurals ∨ p.1 = p.1.dropLast ++ ['s'] := by decide
    rcases htable p hp with hmem | heq
    · exact absurd hends (hopen p.1 hmem)
    · rw [heq, endsIn_append_iff] at hends
      exact absurd hends.1 hs

/-- No rule applies behind an ending that is apart from `s` and the irregular plurals. -/
theorem isSettled_of_apart (hapart : Apart [ending] (['s'] :: openPlurals))
    (h : endsIn word ending = true) : IsSettled word :=
  isSettled_of_open (hapart.not_endsIn List.mem_cons_self h List.mem_cons_self)
    fun _ hp => hapart.not_endsIn List.mem_cons_self h (List.mem_cons_of_mem _ hp)

/-- The endings that rules look at, besides unchanged words and a single `s`. -/
def ruleEndings : List (List Char) :=
  doubledPlurals ++ irregularPlurals.map Prod.fst ++ sibilantPlurals ++ [['i', 'e', 's'], ['v', 'e', 's']]

/-- Behind an ending that is apart from those, a word loses an `s` or nothing. -/
theorem singularLetters_of_apart (hapart : Apart [ending] ruleEndings) (h : endsIn word ending = true) :
    (singularLetters word = replaceLast word 1 [] ∧ ¬ endsIn word ['s', 's'] = true) ∨
    (singularLetters word = word ∧ (word.length < 2 ∨ (∃ u ∈ unchangedWords, endsIn word u = true) ∨
      (endsIn word ['s'] = true → ∃ e ∈ [['s', 's'], ['u', 's'], ['i', 's']], endsIn word e = true))) := by
  have hnone {e : List Char} (hends : endsIn word e = true) (he : e ∈ ruleEndings) : False :=
    hapart.not_endsIn List.mem_cons_self h he hends
  have hrule := singularRule word
  generalize singularLetters word = result at hrule ⊢
  cases hrule with
  | doubled hu hs hends => exact (hnone hends (by simp [ruleEndings, mem_doubledPlurals hu hs])).elim
  | unchanged hsame => exact Or.inr ⟨rfl, hsame.imp_right Or.inl⟩
  | irregular hp hends => exact (hnone hends (by simp [ruleEndings, List.mem_map_of_mem hp])).elim
  | ies hends => exact (hnone hends (by simp [ruleEndings])).elim
  | ves hends => exact (hnone hends (by simp [ruleEndings])).elim
  | sibilant he hends => exact (hnone hends (by simp [ruleEndings, he])).elim
  | plain _ hss => exact Or.inl ⟨rfl, hss⟩
  | none _ hother => exact Or.inr ⟨rfl, Or.inr (Or.inr hother)⟩

/-- Two letters `s` at the end belong to the word, whatever stands before them. -/
theorem isSettled_of_ss (h : endsIn word ['s', 's'] = true) : IsSettled word := by
  rcases singularLetters_of_apart (by decide) h with ⟨-, hss⟩ | ⟨hsame, -⟩
  · exact absurd h hss
  · exact hsame

/-! ## Singulars -/

/-- What stands in place of an irregular plural is its singular. -/
theorem endsIn_replacePlural {p : List Char × List Char} (hp : p ∈ irregularPlurals) (word : List Char) :
    endsIn (replacePlural word p.1 p.2) p.2 = true := by
  have htable : ∀ p ∈ irregularPlurals,
      (p.2.map Char.toUpper).map Char.toLower = p.2 ∧ p.2.map Char.toLower = p.2 := by decide
  obtain ⟨hupper, hlower⟩ := htable p hp
  obtain ⟨plural, single⟩ := p
  cases single with
  | nil => exact endsIn_replaceLast word plural.length []
  | cons c rest =>
    simp only [List.map_cons, List.cons.injEq] at hupper hlower
    have hends := endsIn_replaceLast word plural.length
      ((if word[word.length - plural.length]?.any Char.isUpper then c.toUpper else c) :: rest)
    rw [List.map_cons, apply_ite Char.toLower, hupper.1, hlower.1, ite_self, hlower.2] at hends
    exact hends

/-- Irregular singulars are settled. -/
theorem isSettled_replacePlural {p : List Char × List Char} (hp : p ∈ irregularPlurals)
    (word : List Char) : IsSettled (replacePlural word p.1 p.2) := by
  have htable : ∀ p ∈ irregularPlurals,
      p.2 ∈ unchangedWords ∨ Apart [p.2] (['s'] :: openPlurals) := by decide
  have hends := endsIn_replacePlural hp word
  rcases htable p hp with hunchanged | hapart
  · exact isSettled_of_unchanged hunchanged hends
  · exact isSettled_of_apart hapart hends

/-- The singular of a word that does not end in `s` is settled. -/
theorem isSettled_singularLetters (hs : ¬ endsIn word ['s'] = true) :
    IsSettled (singularLetters word) := by
  rcases singularLetters_of_not_s hs with ⟨h, -⟩ | ⟨p, hp, -, h⟩
  · rw [h]
    exact h
  · rw [h]
    exact isSettled_replacePlural hp word

/-- What is left of a plural in `es` is settled. -/
theorem isSettled_of_sibilant {e : List Char} (he : e ∈ sibilantPlurals) (h : endsIn word e = true) :
    IsSettled (replaceLast word 2 []) := by
  have htable : ∀ e ∈ sibilantPlurals, e = e.dropLast.dropLast ++ ['e', 's'] ∧
      (e.dropLast.dropLast = ['s', 's'] ∨ Apart [e.dropLast.dropLast] (['s'] :: openPlurals)) := by
    decide
  obtain ⟨heq, hrest⟩ := htable e he
  rw [heq, endsIn_append_iff] at h
  rcases hrest with hss | hapart
  · exact isSettled_of_ss (hss ▸ h.2)
  · exact isSettled_of_apart hapart h.2

/-- A singular is settled, or the word has only lost an `s`, before which there was none. -/
theorem singularLetters_cases (word : List Char) : IsSettled (singularLetters word) ∨
    endsIn word ['s'] = true ∧ singularLetters word = replaceLast word 1 [] ∧
      ¬ endsIn (singularLetters word) ['s'] = true := by
  have hsame : singularLetters word = word → IsSettled (singularLetters word) := fun h => by
    rw [h]
    exact h
  have hrule := singularRule word
  generalize singularLetters word = result at hrule hsame ⊢
  cases hrule with
  | doubled hu _ h => exact Or.inl (isSettled_of_unchanged hu (endsIn_append_iff.1 h).2)
  | unchanged => exact Or.inl (hsame rfl)
  | irregular hp => exact Or.inl (isSettled_replacePlural hp word)
  | ies => exact Or.inl (isSettled_of_apart (by decide) (endsIn_replaceLast word 3 ['y']))
  | ves => exact Or.inl (isSettled_of_apart (by decide) (endsIn_replaceLast word 3 ['f']))
  | sibilant he h => exact Or.inl (isSettled_of_sibilant he h)
  | plain hs hss => exact Or.inr ⟨hs, rfl, fun h => hss (endsIn_append_iff.2 ⟨hs, h⟩)⟩
  | none => exact Or.inl (hsame rfl)

/-! ## Plurals of plurals -/

/-- The word has an `s` behind an irregular plural, and is not the plural of an unchanged word. -/
def HasDoublePlural (word : List Char) : Prop :=
  (∃ p ∈ openPlurals, endsIn word (p ++ ['s']) = true) ∧ ¬ endsIn word "metadatas".toList = true

/-- A singular that is not settled comes from such a word. -/
theorem hasDoublePlural_of_not_isSettled (h : ¬ IsSettled (singularLetters word)) :
    HasDoublePlural word := by
  rcases singularLetters_cases word with hsettled | ⟨hs, heq, hopen⟩
  · exact absurd hsettled h
  constructor
  · by_contra hnone
    push Not at hnone
    refine h (isSettled_of_open hopen fun p hp hends => hnone p hp ?_)
    rw [heq] at hends
    exact endsIn_append_iff.2 ⟨hs, hends⟩
  · intro hmetadatas
    have hmetadata : endsIn word ['s'] = true ∧ endsIn (replaceLast word 1 []) "metadata".toList = true :=
      endsIn_append_iff.1 hmetadatas
    refine h (isSettled_of_unchanged (u := "metadata".toList) (by decide) ?_)
    rw [heq]
    exact hmetadata.2

/-- A word with an `s` behind an irregular plural loses this `s`. -/
theorem singularLetters_of_openPlural {p : List Char} (hp : p ∈ openPlurals)
    (h : endsIn word (p ++ ['s']) = true) : singularLetters word = replaceLast word 1 [] := by
  have htable : ∀ p ∈ openPlurals, 2 ≤ (p ++ ['s']).length ∧ Apart [p ++ ['s']] ruleEndings ∧
      Apart [p ++ ['s']] (unchangedWords ++ [['s', 's'], ['u', 's'], ['i', 's']]) := by decide
  obtain ⟨hlong, hrules, hapart⟩ := htable p hp
  rcases singularLetters_of_apart hrules h with ⟨heq, -⟩ | ⟨-, hshort | ⟨u, hu, hends⟩ | hother⟩
  · exact heq
  · exact absurd (Nat.le_trans hlong (length_le_of_endsIn h)) (Nat.not_le.2 hshort)
  · exact absurd hends (hapart.not_endsIn List.mem_cons_self h (List.mem_append_left _ hu))
  · obtain ⟨e, he, hends⟩ := hother (endsIn_append_iff.1 h).1
    exact absurd hends (hapart.not_endsIn List.mem_cons_self h (List.mem_append_right _ he))

/-- An irregular plural that does not end in `s` is not settled, unless it is part of an unchanged word. -/
theorem not_isSettled_of_openPlural {p : List Char} (hp : p ∈ openPlurals) (h : endsIn word p = true)
    (hmetadata : ¬ endsIn word "metadata".toList = true) : ¬ IsSettled word := by
  have hs : Apart openPlurals [['s']] := by decide
  unfold IsSettled
  rcases singularLetters_of_not_s (hs.not_endsIn hp h List.mem_cons_self) with
    ⟨-, hshort | ⟨u, hu, hends⟩ | hnone⟩ | ⟨q, hq, hends, heq⟩
  · have hlong : ∀ p ∈ openPlurals, 2 ≤ p.length := by decide
    exact absurd (Nat.le_trans (hlong p hp) (length_le_of_endsIn h)) (Nat.not_le.2 hshort)
  · have htable : ∀ u ∈ unchangedWords, u = "metadata".toList ∨ Apart openPlurals [u] := by decide
    rcases htable u hu with rfl | hapart
    · exact absurd hends hmetadata
    · exact absurd hends (hapart.not_endsIn hp h List.mem_cons_self)
  · have htable : ∀ p ∈ openPlurals, p ∈ irregularPlurals.map Prod.fst := by decide
    obtain ⟨q, hq, rfl⟩ := List.mem_map.1 (htable p hp)
    exact absurd h (hnone q hq)
  · -- The singular ends in another way than the plural.
    have htable : ∀ q ∈ irregularPlurals, Apart [q.1] [q.2] := by decide
    intro hsame
    rw [heq] at hsame
    have hsingle := endsIn_replacePlural hq word
    rw [hsame] at hsingle
    exact (htable q hq).not_endsIn List.mem_cons_self hends List.mem_cons_self hsingle

theorem isSettled_singularLetters_iff (word : List Char) :
    IsSettled (singularLetters word) ↔ ¬ HasDoublePlural word := by
  constructor
  · rintro hsettled ⟨⟨p, hp, hends⟩, hmetadatas⟩
    have hends' := endsIn_append_iff.1 hends
    rw [singularLetters_of_openPlural hp hends] at hsettled
    refine not_isSettled_of_openPlural hp hends'.2 (fun hmetadata => hmetadatas ?_) hsettled
    exact endsIn_append_iff.2 ⟨hends'.1, hmetadata⟩
  · intro h
    by_contra hnot
    exact h (hasDoublePlural_of_not_isSettled hnot)

/-! ## Main result -/

/-- The singular of a word is its own singular, except where it comes from a plural with an `s` behind it, as
in `peoples`; and then the singular of the singular is. -/
theorem singular_settles (word : String) :
    (singular (singular word) = singular word ↔
      ¬ ((∃ p ∈ openPlurals, endsIn word.toList (p ++ ['s']) = true) ∧
        ¬ endsIn word.toList "metadatas".toList = true)) ∧
    singular (singular (singular word)) = singular (singular word) := by
  have hagain (cs : List Char) : singular (String.ofList cs) = String.ofList (singularLetters cs) := by
    unfold singular
    rw [String.toList_ofList]
  have hfirst : singular word = String.ofList (singularLetters word.toList) := rfl
  constructor
  · rw [hfirst, hagain, String.ofList_inj]
    exact isSettled_singularLetters_iff word.toList
  · rw [hfirst, hagain, hagain]
    apply congrArg String.ofList
    rcases singularLetters_cases word.toList with hsettled | ⟨-, -, hs⟩
    · exact congrArg singularLetters hsettled
    · exact isSettled_singularLetters hs

/-- A plural of a plural takes two steps, and an unchanged word with an `s` takes one. -/
example : singular "SalesPeoples" = "SalesPeople" ∧ singular "SalesPeople" = "SalesPerson" ∧
    singular "metadatas" = "metadata" ∧ singular "metadata" = "metadata" := by decide +kernel

end ShapeGraph
