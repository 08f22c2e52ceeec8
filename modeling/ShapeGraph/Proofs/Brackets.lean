import ShapeGraph.Proofs.JsonTexts

/-!
# Brackets in JSON texts

Outside of strings, the brackets in the text of a value are balanced, and the text of an object closes its
first brace at its very end.  So no text of an object ends with that of another one.

## Main definitions

* `Scan` — whether the place in a text is in a string, and how many brackets are open there.
* `Scan.Stays` — there are always so many open brackets.
* `Balanced` — a text closes the brackets that it opens, and no others.

## Main results

* `Json.balanced_compact` — texts of values are balanced.
* `Balanced.append_ne` — no text in braces ends with another one.

## Design

A backslash is taken for an escape outside of strings as well, where there are none.  So taking what is in
strings for what is not, and the other way round, makes no difference for where strings begin and end.
-/

set_option autoImplicit false

namespace ShapeGraph

/-! ## Scanning -/

/-- What is known at a place in a text. -/
structure Scan where
  /-- Whether the place is in a string. -/
  quoted : Bool
  /-- Whether a backslash stands before the place. -/
  escaped : Bool
  /-- The number of brackets that are open. -/
  depth : ℤ

namespace Scan

variable {s t : Scan} {d : ℤ} {cs ds : List Char}

/-- What is known after a character. -/
def step (s : Scan) (c : Char) : Scan :=
  if s.escaped then { s with escaped := false }
  else if c = '\\' then { s with escaped := true }
  else if c = '"' then { s with quoted := !s.quoted }
  else if s.quoted then s
  else if c = '[' ∨ c = '\x7b' then { s with depth := s.depth + 1 }
  else if c = ']' ∨ c = '\x7d' then { s with depth := s.depth - 1 }
  else s

/-- What is known after some text. -/
def run (s : Scan) (cs : List Char) : Scan := cs.foldl step s

@[simp] theorem run_nil (s : Scan) : s.run [] = s := rfl

@[simp] theorem run_cons (s : Scan) (c : Char) (cs : List Char) : s.run (c :: cs) = (s.step c).run cs := rfl

@[simp] theorem run_append (s : Scan) (cs ds : List Char) : s.run (cs ++ ds) = (s.run cs).run ds :=
  List.foldl_append

/-- A place outside of strings. -/
def outside (d : ℤ) : Scan := ⟨false, false, d⟩

/-- A place in a string. -/
def inside (d : ℤ) : Scan := ⟨true, false, d⟩

/-- At least so many brackets are open, and backslashes stand in strings only. -/
structure Fine (d : ℤ) (s : Scan) : Prop where
  le_depth : d ≤ s.depth
  quoted_of_escaped : s.escaped = true → s.quoted = true

/-- At all places of a text, at least so many brackets are open, and backslashes stand in strings only. -/
def Stays (d : ℤ) : Scan → List Char → Prop
  | s, [] => s.Fine d
  | s, c :: cs => s.Fine d ∧ Stays d (s.step c) cs

theorem Stays.append (hcs : Stays d s cs) (hds : Stays d (s.run cs) ds) : Stays d s (cs ++ ds) := by
  induction cs generalizing s with
  | nil => exact hds
  | cons c cs ih => exact ⟨hcs.1, ih hcs.2 hds⟩

theorem Stays.fine (h : Stays d s (cs ++ ds)) : (s.run cs).Fine d := by
  induction cs generalizing s with
  | nil =>
    cases ds with
    | nil => exact h
    | cons c ds => exact h.1
  | cons c cs ih => exact ih h.2

theorem Stays.mono {e : ℤ} (h : Stays d s cs) (hle : e ≤ d) : Stays e s cs := by
  induction cs generalizing s with
  | nil => exact ⟨hle.trans h.le_depth, h.quoted_of_escaped⟩
  | cons c cs ih => exact ⟨⟨hle.trans h.1.le_depth, h.1.quoted_of_escaped⟩, ih h.2⟩

/-- Where strings begin and end is up to quotes and backslashes only. -/
theorem quoted_step (s : Scan) (c : Char) : (s.step c).quoted = (s.quoted ^^ (!s.escaped && c == '"')) := by
  unfold step
  by_cases hescaped : s.escaped = true
  · simp [hescaped]
  · by_cases hbackslash : c = '\\'
    · simp [hescaped, hbackslash]
    · by_cases hquote : c = '"'
      · simp [hescaped, hquote]
      · rw [if_neg hescaped, if_neg hbackslash, if_neg hquote, beq_false_of_ne hquote, Bool.and_false,
          Bool.xor_false]
        split_ifs <;> rfl

theorem escaped_step (s : Scan) (c : Char) : (s.step c).escaped = (!s.escaped && c == '\\') := by
  unfold step
  by_cases hescaped : s.escaped = true
  · simp [hescaped]
  · by_cases hbackslash : c = '\\'
    · simp [hescaped, hbackslash]
    · rw [if_neg hescaped, if_neg hbackslash]
      split_ifs <;> simp [hescaped, hbackslash]

/-- Taking strings for what is not, and the other way round, changes nothing about where they begin and
end. -/
theorem quoted_run (hquoted : s.quoted = !t.quoted) (hescaped : s.escaped = t.escaped) :
    (s.run cs).quoted = !(t.run cs).quoted := by
  induction cs generalizing s t with
  | nil => exact hquoted
  | cons c cs ih =>
    refine ih ?_ ?_
    · rw [quoted_step, quoted_step, hquoted, hescaped, Bool.not_xor]
    · rw [escaped_step, escaped_step, hescaped]

theorem fine_outside (d : ℤ) : (outside d).Fine d := ⟨le_rfl, id⟩

theorem fine_inside (d : ℤ) : (inside d).Fine d := ⟨le_rfl, fun _ => rfl⟩

/-- Outside of strings, no backslash stands before a place. -/
theorem Fine.eq_outside (h : s.Fine d) (hquoted : s.quoted = false) : s = outside s.depth := by
  have hescaped : s.escaped = false := by
    by_contra hescaped
    rw [h.quoted_of_escaped (by simpa using hescaped)] at hquoted
    cases hquoted
  cases s
  simp_all [outside]

/-- A brace in a string is nothing but a character. -/
theorem step_brace_of_quoted (hquoted : s.quoted = true) :
    (s.step '\x7b').quoted = true ∧ (s.step '\x7b').escaped = false := by
  unfold step
  cases hescaped : s.escaped <;> simp [hquoted, hescaped]

end Scan

/-! ## Balanced texts -/

/-- From a place outside of strings, the text leads to such a place with the same brackets open, and never
closes one of these. -/
structure Balanced (cs : List Char) : Prop where
  run_eq : ∀ d, (Scan.outside d).run cs = .outside d
  stays : ∀ d, (Scan.outside d).Stays d cs

namespace Balanced

variable {cs ds : List Char}

theorem nil : Balanced [] := ⟨fun _ => rfl, Scan.fine_outside⟩

theorem append (hcs : Balanced cs) (hds : Balanced ds) : Balanced (cs ++ ds) where
  run_eq d := by rw [Scan.run_append, hcs.run_eq, hds.run_eq]
  stays d := (hcs.stays d).append ((hcs.run_eq d).symm ▸ hds.stays d)

/-- The quote, the backslash and the brackets. -/
def marks : List Char := ['"', '\\', '[', ']', '\x7b', '\x7d']

theorem of_plain (hcs : cs.all (· ∉ marks) = true) : Balanced cs := by
  induction cs with
  | nil => exact nil
  | cons c cs ih =>
    rw [List.all_cons, Bool.and_eq_true, decide_eq_true_iff] at hcs
    have hstep : ∀ d, (Scan.outside d).step c = .outside d := by
      intro d
      have hc := hcs.1
      simp only [marks, List.mem_cons, List.not_mem_nil, not_or, or_false] at hc
      simp [Scan.step, Scan.outside, hc]
    have hrest := ih hcs.2
    exact ⟨fun d => by rw [Scan.run_cons, hstep, hrest.run_eq],
      fun d => ⟨Scan.fine_outside d, (hstep d).symm ▸ hrest.stays d⟩⟩

/-- Brackets around a balanced text leave it balanced. -/
theorem enclosed (hcs : Balanced cs) {left right : Char} (hleft : left = '[' ∨ left = '\x7b')
    (hright : right = ']' ∨ right = '\x7d') : Balanced (left :: (cs ++ [right])) := by
  have hopen : ∀ d, (Scan.outside d).step left = .outside (d + 1) := by
    rcases hleft with rfl | rfl <;> exact fun d => rfl
  have hclose : ∀ d, (Scan.outside (d + 1)).step right = .outside d := by
    have hdepth : ∀ d : ℤ, d + 1 - 1 = d := by omega
    rcases hright with rfl | rfl <;> exact fun d => congrArg Scan.outside (hdepth d)
  refine ⟨fun d => ?_, fun d => ⟨Scan.fine_outside d, ?_⟩⟩
  · rw [Scan.run_cons, hopen, Scan.run_append, hcs.run_eq, Scan.run_cons, hclose, Scan.run_nil]
  · rw [hopen]
    refine Scan.Stays.append ((hcs.stays (d + 1)).mono (by omega)) ?_
    rw [hcs.run_eq]
    exact ⟨⟨by simp [Scan.outside], id⟩, (hclose d).symm ▸ Scan.fine_outside d⟩

end Balanced

/-! ## Strings -/

namespace Scan

/-- Characters that are neither quotes nor backslashes stay in the string. -/
theorem inside_of_ne {cs : List Char} (hcs : ∀ c ∈ cs, c ≠ '"' ∧ c ≠ '\\') (d : ℤ) :
    (inside d).run cs = inside d ∧ (inside d).Stays d cs := by
  induction cs with
  | nil => exact ⟨rfl, fine_inside d⟩
  | cons c cs ih =>
    obtain ⟨hquote, hbackslash⟩ := hcs c List.mem_cons_self
    have hstep : (inside d).step c = inside d := by
      simp [step, inside, hquote, hbackslash]
    obtain ⟨hrun, hstays⟩ := ih fun e he => hcs e (List.mem_cons_of_mem c he)
    exact ⟨by rw [run_cons, hstep, hrun], fine_inside d, hstep.symm ▸ hstays⟩

theorem hexDigit_ne (n : ℕ) : Json.hexDigit n ≠ '"' ∧ Json.hexDigit n ≠ '\\' := by
  have hall : ∀ m < 16, Nat.digitChar m ≠ '"' ∧ Nat.digitChar m ≠ '\\' := by decide
  exact hall (n % 16) (Nat.mod_lt n (by norm_num))

/-- A backslash and the character behind it stay in the string. -/
theorem inside_escape (e : Char) {cs : List Char} (hcs : ∀ c ∈ cs, c ≠ '"' ∧ c ≠ '\\') (d : ℤ) :
    (inside d).run ('\\' :: e :: cs) = inside d ∧ (inside d).Stays d ('\\' :: e :: cs) := by
  obtain ⟨hrun, hstays⟩ := inside_of_ne hcs d
  exact ⟨hrun, fine_inside d, ⟨le_rfl, fun _ => rfl⟩, hstays⟩

/-- A character as it is written in a string does not end the string. -/
theorem inside_escapeChar (c : Char) (d : ℤ) :
    (inside d).run (Json.escapeChar c) = inside d ∧ (inside d).Stays d (Json.escapeChar c) := by
  rcases Json.escapeChar_cases c with ⟨heq, hquote, hbackslash, -⟩ | ⟨e, heq, -⟩ | ⟨heq, -⟩
  · rw [heq]
    exact inside_of_ne (by simpa using ⟨hquote, hbackslash⟩) d
  · rw [heq]
    exact inside_escape e (by simp) d
  · rw [heq]
    exact inside_escape 'u' (by simp [hexDigit_ne]) d

/-- The text of a string between its quotes does not end it. -/
theorem inside_flatMap_escapeChar (cs : List Char) (d : ℤ) :
    (inside d).run (cs.flatMap Json.escapeChar) = inside d ∧
      (inside d).Stays d (cs.flatMap Json.escapeChar) := by
  induction cs with
  | nil => exact ⟨rfl, fine_inside d⟩
  | cons c cs ih =>
    obtain ⟨hrun, hstays⟩ := inside_escapeChar c d
    rw [List.flatMap_cons, run_append, hrun]
    exact ⟨ih.1, hstays.append (hrun.symm ▸ ih.2)⟩

end Scan

/-- The text of a string is balanced. -/
theorem Balanced.quote (text : String) : Balanced (Json.quote text).toList := by
  have htext := Json.toList_quote_append text []
  rw [List.append_nil] at htext
  rw [htext]
  refine ⟨fun d => ?_, fun d => ⟨Scan.fine_outside d, ?_⟩⟩
  · obtain ⟨hrun, -⟩ := Scan.inside_flatMap_escapeChar text.toList d
    show (Scan.inside d).run (text.toList.flatMap Json.escapeChar ++ ['"']) = .outside d
    rw [Scan.run_append, hrun]
    rfl
  · obtain ⟨hrun, hstays⟩ := Scan.inside_flatMap_escapeChar text.toList d
    refine hstays.append ?_
    rw [hrun]
    exact ⟨Scan.fine_inside d, Scan.fine_outside d⟩

/-! ## Values -/

/-- The text of a number has no brackets. -/
theorem Balanced.render (n : Number) : Balanced n.render.toList := by
  refine of_plain (List.all_eq_true.2 fun c hc => decide_eq_true fun hmark => ?_)
  have hmarks : marks.all (!Double.isNumeral ·) = true := by decide
  have hnumeral := Number.isNumeral_of_mem_render hc
  simpa [hnumeral] using List.all_eq_true.1 hmarks c hmark

namespace Json

mutual

/-- The text of a value is balanced. -/
theorem balanced_compact : ∀ v : Json, Balanced v.compact.toList
  | .null => .of_plain (by decide)
  | .bool b => by cases b <;> exact .of_plain (by decide)
  | .num n => .render n
  | .str text => .quote text
  | .arr items => by
    rw [compact, String.toList_append, String.toList_append]
    exact (balanced_compactItems items).enclosed (Or.inl rfl) (Or.inl rfl)
  | .obj members => by
    rw [compact, String.toList_append, String.toList_append]
    exact (balanced_compactMembers members).enclosed (Or.inr rfl) (Or.inr rfl)

/-- The text of items is balanced. -/
theorem balanced_compactItems : ∀ items : List Json, Balanced (compactItems items).toList
  | [] => .nil
  | [v] => by
    rw [compactItems]
    exact balanced_compact v
  | v :: w :: rest => by
    rw [compactItems, String.toList_append, String.toList_append]
    exact ((balanced_compact v).append (.of_plain (by decide))).append (balanced_compactItems (w :: rest))

/-- The text of members is balanced. -/
theorem balanced_compactMembers : ∀ members : List (String × Json),
    Balanced (compactMembers members).toList
  | [] => .nil
  | [(k, v)] => by
    rw [compactMembers, String.toList_append, String.toList_append]
    exact ((Balanced.quote k).append (.of_plain (by decide))).append (balanced_compact v)
  | (k, v) :: m :: rest => by
    rw [compactMembers, String.toList_append, String.toList_append, String.toList_append,
      String.toList_append]
    exact ((((Balanced.quote k).append (.of_plain (by decide))).append (balanced_compact v)).append
      (.of_plain (by decide))).append (balanced_compactMembers (m :: rest))

end

end Json

/-! ## Endings -/

/-- No text in braces ends with another one.

**Proof sketch.** Before the other one, the first brace is still open.  If the place is outside of strings, it
is open at the end as well.  If it is in a string, taking strings for what is not shows that so is the
end. -/
theorem Balanced.append_ne {cs ds start : List Char} (hcs : Balanced cs) (hds : Balanced ds)
    (hstart : start ≠ []) :
    start ++ '\x7b' :: (ds ++ ['\x7d']) ≠ '\x7b' :: (cs ++ ['\x7d']) := by
  intro heq
  obtain ⟨c, start, rfl⟩ := List.exists_cons_of_ne_nil hstart
  obtain ⟨rfl, htail⟩ := List.cons.inj heq
  obtain rfl : start ++ '\x7b' :: ds = cs := by
    have hcancel : (start ++ '\x7b' :: ds) ++ ['\x7d'] = cs ++ ['\x7d'] := by
      rw [List.append_assoc]
      exact htail
    exact List.append_cancel_right hcancel
  have houter := (hcs.enclosed (Or.inr rfl) (Or.inr rfl)).run_eq 0
  have hinner := (hds.enclosed (Or.inr rfl) (Or.inr rfl)).run_eq
  have hfine : ((Scan.outside 1).run start).Fine 1 := (hcs.stays 1).fine
  rw [← heq, Scan.run_append] at houter
  change ((Scan.outside 1).run start).run ('\x7b' :: (ds ++ ['\x7d'])) = .outside 0 at houter
  generalize (Scan.outside 1).run start = s at hfine houter
  cases hquoted : s.quoted with
  | false =>
    rw [hfine.eq_outside hquoted, hinner] at houter
    have hdepth := congrArg Scan.depth houter
    have hle := hfine.le_depth
    simp only [Scan.outside] at hdepth
    omega
  | true =>
    obtain ⟨hstill, hescaped⟩ := Scan.step_brace_of_quoted hquoted
    have hflip : ((s.step '\x7b').run (ds ++ ['\x7d'])).quoted =
        !(((Scan.outside 0).step '\x7b').run (ds ++ ['\x7d'])).quoted :=
      Scan.quoted_run hstill hescaped
    rw [← Scan.run_cons, ← Scan.run_cons, houter, hinner] at hflip
    cases hflip

end ShapeGraph
