import ShapeGraph.Toml.Strings
import Mathlib.Data.List.Infix

/-!
# Written strings are read back

Whatever a text holds, the string that is written for it in a settings file is read as this text, and what
follows the string is left.

## Main results

* `Toml.takeBasic_flatMap_writeChar` — texts between quotes.
* `Toml.takeLiteral_append` — texts between apostrophes.
* `Toml.takeLongBasic_writeLong` — texts between three quotes.
* `Toml.takeLongLiteral_append` — texts between three apostrophes.
* `Toml.takeString_writeString` — all written texts.

## Design

Up to two quotes at the end of a text stand before the three that close it, so the reader sees the closing
ones too early and takes the last ones back.  Everywhere else three quotes in a row are prevented by the
writer, and three apostrophes by the choice of the form.
-/

set_option autoImplicit false

namespace ShapeGraph

namespace Toml

/-! ## Characters between quotes -/

/-- A character is written as it is, as an escape of one letter, or by its number. -/
theorem writeChar_cases (c : Char) :
    (writeChar c = [c] ∧ c ≠ '"' ∧ c ≠ '\\' ∧ isControl c = false) ∨
      (∃ e, writeChar c = ['\\', e] ∧ escaped? e = some c) ∨
      (writeChar c = codeEscape c ∧ isControl c = true) := by
  have hletter : ∀ {d e : Char}, writeChar d = ['\\', e] → escaped? e = some d → c = d →
      ∃ e, writeChar c = ['\\', e] ∧ escaped? e = some c := by
    rintro d e hwrite hread rfl
    exact ⟨e, hwrite, hread⟩
  by_cases hquote : c = '"'
  · exact Or.inr (Or.inl (hletter rfl rfl hquote))
  by_cases hbackslash : c = '\\'
  · exact Or.inr (Or.inl (hletter rfl rfl hbackslash))
  by_cases hbackspace : c.toNat = 8
  · exact Or.inr (Or.inl (hletter rfl rfl ((Char.ofNat_toNat c).symm.trans (congrArg Char.ofNat hbackspace))))
  by_cases htab : c = '\t'
  · exact Or.inr (Or.inl (hletter rfl rfl htab))
  by_cases hnewline : c = '\n'
  · exact Or.inr (Or.inl (hletter rfl rfl hnewline))
  by_cases hfeed : c.toNat = 12
  · exact Or.inr (Or.inl (hletter rfl rfl ((Char.ofNat_toNat c).symm.trans (congrArg Char.ofNat hfeed))))
  by_cases hreturn : c = '\r'
  · exact Or.inr (Or.inl (hletter rfl rfl hreturn))
  unfold writeChar
  rw [if_neg hquote, if_neg hbackslash, if_neg hbackspace, if_neg htab, if_neg hnewline, if_neg hfeed,
    if_neg hreturn]
  cases hcontrol : isControl c with
  | true => exact Or.inr (Or.inr ⟨rfl, rfl⟩)
  | false => exact Or.inl ⟨rfl, hquote, hbackslash, rfl⟩

/-- The number of a control character is read back from its escape. -/
theorem coded?_control {c : Char} (h : isControl c = true) :
    coded? ['0', '0', hexDigit (c.toNat / 16), hexDigit c.toNat] = some c := by
  have hlt : c.toNat < 128 := by
    simp only [isControl, Bool.or_eq_true, Bool.and_eq_true, decide_eq_true_eq] at h
    omega
  have hcoded : ∀ n < 128, coded? ['0', '0', hexDigit (n / 16), hexDigit n] = some (Char.ofNat n) := by
    decide +kernel
  rw [hcoded _ hlt, Char.ofNat_toNat]

/-- The letter of an escape is no letter that announces a number. -/
theorem ne_of_escaped? {c e : Char} (h : escaped? e = some c) : e ≠ 'u' ∧ e ≠ 'U' := by
  constructor <;> rintro rfl <;> cases h

/-! ## Texts between quotes -/

theorem takeBasic_plain {c : Char} (hquote : c ≠ '"') (hbackslash : c ≠ '\\') (hcontrol : isControl c = false)
    (rest : List Char) : takeBasic (c :: rest) = prepend c (takeBasic rest) := by
  rw [takeBasic]
  · simp [hcontrol, hbackslash]
  all_goals simp_all

theorem takeBasic_escaped {c e : Char} (h : escaped? e = some c) (rest : List Char) :
    takeBasic ('\\' :: e :: rest) = prepend c (takeBasic rest) := by
  obtain ⟨hu, hU⟩ := ne_of_escaped? h
  rw [takeBasic]
  · rw [h]
    rfl
  all_goals simp_all

theorem takeBasic_writeChar (c : Char) (rest : List Char) :
    takeBasic (writeChar c ++ rest) = prepend c (takeBasic rest) := by
  rcases writeChar_cases c with ⟨heq, hquote, hbackslash, hcontrol⟩ | ⟨e, heq, hread⟩ | ⟨heq, hcontrol⟩
  · rw [heq]
    exact takeBasic_plain hquote hbackslash hcontrol rest
  · rw [heq]
    exact takeBasic_escaped hread rest
  · rw [heq]
    show takeBasic ('\\' :: 'u' :: _ :: _ :: _ :: _ :: rest) = _
    rw [takeBasic, coded?_control hcontrol]
    rfl

theorem takeBasic_flatMap_writeChar (text rest : List Char) :
    takeBasic (text.flatMap writeChar ++ '"' :: rest) = some (text, rest) := by
  induction text with
  | nil => rfl
  | cons c text ih =>
    rw [List.flatMap_cons, List.append_assoc, takeBasic_writeChar, ih]
    rfl

/-! ## Texts between apostrophes -/

theorem takeLiteral_append {text : List Char} (h : ∀ c ∈ text, c ≠ '\'' ∧ isControl c = false)
    (rest : List Char) : takeLiteral (text ++ '\'' :: rest) = some (text, rest) := by
  induction text with
  | nil => rfl
  | cons c text ih =>
    rw [List.forall_mem_cons] at h
    rw [List.cons_append, takeLiteral]
    · rw [h.1.2, ih h.2]
      rfl
    · exact h.1.1

/-! ## Texts between three quotes -/

/-- The letter of an escape does not end a line. -/
theorem endsLine_of_escaped? {c e : Char} (h : escaped? e = some c) (rest : List Char) :
    endsLine (e :: rest) = false := by
  have hblank : e ≠ ' ' ∧ e ≠ '\t' := by
    constructor <;> rintro rfl <;> cases h
  have hbreak : e ≠ '\n' ∧ e ≠ '\r' := by
    constructor <;> rintro rfl <;> cases h
  have hkept : (e :: rest).dropWhile (fun c => c == ' ' || c == '\t') = e :: rest :=
    List.dropWhile_cons_of_neg (by simp [hblank])
  unfold endsLine
  rw [hkept]
  split <;> simp_all

theorem takeLongBasic_plain {c : Char} (hquote : c ≠ '"') (hbackslash : c ≠ '\\')
    (hcontrol : isControl c = false) (rest : List Char) :
    takeLongBasic false (c :: rest) = prepend c (takeLongBasic false rest) := by
  have hbreak : c ≠ '\n' ∧ c ≠ '\r' := by
    constructor <;> rintro rfl <;> cases hcontrol
  rw [takeLongBasic]
  · simp [hcontrol, hbackslash]
  all_goals simp_all

theorem takeLongBasic_escaped {c e : Char} (h : escaped? e = some c) (rest : List Char) :
    takeLongBasic false ('\\' :: e :: rest) = prepend c (takeLongBasic false rest) := by
  obtain ⟨hu, hU⟩ := ne_of_escaped? h
  rw [takeLongBasic]
  · rw [endsLine_of_escaped? h, h]
    rfl
  all_goals simp_all

theorem takeLongBasic_writeChar (c : Char) (rest : List Char) :
    takeLongBasic false (writeChar c ++ rest) = prepend c (takeLongBasic false rest) := by
  rcases writeChar_cases c with ⟨heq, hquote, hbackslash, hcontrol⟩ | ⟨e, heq, hread⟩ | ⟨heq, hcontrol⟩
  · rw [heq]
    exact takeLongBasic_plain hquote hbackslash hcontrol rest
  · rw [heq]
    exact takeLongBasic_escaped hread rest
  · rw [heq]
    show takeLongBasic false ('\\' :: 'u' :: _ :: _ :: _ :: _ :: rest) = _
    rw [takeLongBasic, coded?_control hcontrol]
    rfl

/-- A quote that is not the first of three stands for itself. -/
theorem takeLongBasic_quote {rest : List Char} (h : ∀ others, rest ≠ '"' :: '"' :: others) :
    takeLongBasic false ('"' :: rest) = prepend '"' (takeLongBasic false rest) := by
  rw [takeLongBasic]
  · rfl
  all_goals simp_all

theorem surplus_of_head_ne {quote : Char} {after : List Char} (h : after.head? ≠ some quote) :
    surplus quote after = ([], after) ∧ surplus quote (quote :: after) = ([quote], after) := by
  cases after with
  | nil => simp [surplus]
  | cons c after =>
    have hc : c ≠ quote := fun heq => h (congrArg some heq)
    cases after <;> simp [surplus, hc]

/-- What is written for a character never begins with a quote. -/
theorem exists_writeChar_eq_cons (c : Char) : ∃ d ds, writeChar c = d :: ds ∧ d ≠ '"' := by
  rcases writeChar_cases c with ⟨heq, hquote, -, -⟩ | ⟨e, heq, -⟩ | ⟨heq, -⟩
  · exact ⟨c, [], heq, hquote⟩
  · exact ⟨'\\', [e], heq, by decide⟩
  · exact ⟨'\\', _, heq, by decide⟩

/-- After two quotes there is no third one, and only a quote begins with one. -/
theorem exists_writeLong_eq_cons {quotes : Nat} {c : Char} (h : c ≠ '"' ∨ 2 ≤ quotes) (text : List Char) :
    ∃ d ds, writeLong quotes (c :: text) = d :: ds ∧ d ≠ '"' := by
  obtain ⟨d, ds, hwrite, hd⟩ := exists_writeChar_eq_cons c
  unfold writeLong
  split_ifs with hquote hfew hbreak
  · exact (h.elim (absurd hquote) (fun hmany => absurd hfew (Nat.not_lt.2 hmany)))
  · exact ⟨d, ds ++ writeLong 0 text, by rw [hwrite]; rfl, hd⟩
  · exact ⟨c, writeLong 0 text, rfl, hquote⟩
  · exact ⟨d, ds ++ writeLong 0 text, by rw [hwrite]; rfl, hd⟩

/-- After a quote, two more stand side by side only before the end of the text. -/
theorem writeLong_ne_quotes {quotes : Nat} {text : List Char} (hquotes : 1 ≤ quotes) (hnil : text ≠ [])
    (hone : quotes < 2 → text ≠ ['"']) (after others : List Char) :
    writeLong quotes text ++ '"' :: '"' :: '"' :: after ≠ '"' :: '"' :: others := by
  obtain ⟨c, text, rfl⟩ := List.exists_cons_of_ne_nil hnil
  by_cases hc : c ≠ '"' ∨ 2 ≤ quotes
  · obtain ⟨d, ds, hwrite, hd⟩ := exists_writeLong_eq_cons hc text
    rw [hwrite]
    exact fun heq => hd (List.cons.inj heq).1
  · rw [not_or, not_not, Nat.not_le] at hc
    obtain ⟨rfl, hfew⟩ := hc
    have htext : text ≠ [] := fun heq => hone hfew (congrArg _ heq)
    obtain ⟨c, text, rfl⟩ := List.exists_cons_of_ne_nil htext
    obtain ⟨d, ds, hwrite, hd⟩ := exists_writeLong_eq_cons (c := c) (Or.inr (Nat.succ_le_succ hquotes)) text
    rw [writeLong, if_pos rfl, if_pos hfew, hwrite]
    exact fun heq => hd (List.cons.inj (List.cons.inj heq).2).1

/-- A text between three quotes is read back, after so many quotes of its own.

**Proof sketch.**  Induction on the text.  Where the reader meets three quotes in a row, at most two
characters of the text are left, both quotes, and these it takes from behind the closing ones. -/
theorem takeLongBasic_writeLong {after : List Char} (hafter : after.head? ≠ some '"') (text : List Char)
    {quotes : Nat} (hquotes : quotes ≤ 2) :
    takeLongBasic false (writeLong quotes text ++ '"' :: '"' :: '"' :: after) = some (text, after) := by
  obtain ⟨hnone, hone⟩ := surplus_of_head_ne hafter
  induction text generalizing quotes with
  | nil =>
    show some (surplus '"' after) = _
    rw [hnone]
  | cons c text ih =>
    unfold writeLong
    split_ifs with hquote hfew hbreak
    · subst hquote
      by_cases hnil : text = []
      · subst hnil
        show some (surplus '"' ('"' :: after)) = _
        rw [hone]
      by_cases hlast : quotes + 1 < 2 ∧ text = ['"']
      · obtain ⟨hfirst, rfl⟩ := hlast
        rw [writeLong, if_pos rfl, if_pos hfirst]
        rfl
      · have hnext := writeLong_ne_quotes (Nat.le_add_left 1 quotes) hnil
          (fun hfirst heq => hlast ⟨hfirst, heq⟩) after
        rw [List.cons_append, takeLongBasic_quote hnext, ih hfew]
        rfl
    · rw [List.append_assoc, takeLongBasic_writeChar, ih (Nat.zero_le 2)]
      rfl
    · subst hbreak
      exact congrArg (prepend '\n') (ih (Nat.zero_le 2))
    · rw [List.append_assoc, takeLongBasic_writeChar, ih (Nat.zero_le 2)]
      rfl

/-! ## Texts between three apostrophes -/

/-- Where no three apostrophes stand in a row, two stand side by side after another one only before the end of
the text. -/
theorem append_ne_apostrophes {text : List Char} (hruns : hasRun '\'' 3 ('\'' :: text) = false)
    (hnil : text ≠ []) (hone : text ≠ ['\'']) (after others : List Char) :
    text ++ '\'' :: '\'' :: '\'' :: after ≠ '\'' :: '\'' :: others := by
  obtain ⟨c, text, rfl⟩ := List.exists_cons_of_ne_nil hnil
  intro heq
  obtain ⟨rfl, htail⟩ := List.cons.inj heq
  obtain ⟨d, text, rfl⟩ := List.exists_cons_of_ne_nil fun h => hone (congrArg _ h)
  obtain ⟨rfl, -⟩ := List.cons.inj htail
  rw [hasRun, Bool.or_eq_false_iff] at hruns
  exact absurd hruns.1 (by simp [List.replicate])

theorem takeLongLiteral_plain {c : Char} (hquote : c ≠ '\'') (hcontrol : isControl c = false)
    (rest : List Char) : takeLongLiteral (c :: rest) = prepend c (takeLongLiteral rest) := by
  have hbreak : c ≠ '\n' ∧ c ≠ '\r' := by
    constructor <;> rintro rfl <;> cases hcontrol
  rw [takeLongLiteral]
  · simp [hcontrol]
  all_goals simp_all

/-- An apostrophe that is not the first of three stands for itself. -/
theorem takeLongLiteral_quote {rest : List Char} (h : ∀ others, rest ≠ '\'' :: '\'' :: others) :
    takeLongLiteral ('\'' :: rest) = prepend '\'' (takeLongLiteral rest) := by
  rw [takeLongLiteral]
  · rfl
  all_goals simp_all

/-- A text without three apostrophes in a row is read back between three of them.

**Proof sketch.**  Like `takeLongBasic_writeLong`, but here it is the text itself that has no three in a
row. -/
theorem takeLongLiteral_append {text after : List Char} (hafter : after.head? ≠ some '\'')
    (hruns : hasRun '\'' 3 text = false) (hcontrol : ∀ c ∈ text, isControl c = false ∨ c = '\n') :
    takeLongLiteral (text ++ '\'' :: '\'' :: '\'' :: after) = some (text, after) := by
  obtain ⟨hnone, hone⟩ := surplus_of_head_ne hafter
  induction text with
  | nil =>
    show some (surplus '\'' after) = _
    rw [hnone]
  | cons c text ih =>
    rw [List.forall_mem_cons] at hcontrol
    have hrest := ih (by rw [hasRun, Bool.or_eq_false_iff] at hruns; exact hruns.2) hcontrol.2
    by_cases hquote : c = '\''
    · subst hquote
      by_cases hnil : text = []
      · subst hnil
        show some (surplus '\'' ('\'' :: after)) = _
        rw [hone]
      by_cases hlast : text = ['\'']
      · subst hlast
        rfl
      · rw [List.cons_append, takeLongLiteral_quote (append_ne_apostrophes hruns hnil hlast after), hrest]
        rfl
    · rcases hcontrol.1 with hplain | rfl
      · rw [List.cons_append, takeLongLiteral_plain hquote hplain, hrest]
        rfl
      · exact congrArg (prepend '\n') hrest

/-! ## All forms -/

theorem skipBreak_of_ne {c : Char} (hnewline : c ≠ '\n') (hreturn : c ≠ '\r') (rest : List Char) :
    skipBreak (c :: rest) = c :: rest := by
  unfold skipBreak
  split <;> simp_all

/-- What is written for a character other than a line break begins with none. -/
theorem skipBreak_writeChar (c : Char) (rest : List Char) :
    skipBreak (writeChar c ++ rest) = writeChar c ++ rest := by
  rcases writeChar_cases c with ⟨heq, -, -, hcontrol⟩ | ⟨e, heq, -⟩ | ⟨heq, -⟩
  · rw [heq]
    exact skipBreak_of_ne (by rintro rfl; cases hcontrol) (by rintro rfl; cases hcontrol) rest
  · rw [heq]
    exact skipBreak_of_ne (by decide) (by decide) _
  · rw [heq]
    exact skipBreak_of_ne (by decide) (by decide) _

theorem skipBreak_lead_writeLong (text after : List Char) :
    skipBreak (lead text ++ (writeLong 0 text ++ '"' :: after)) = writeLong 0 text ++ '"' :: after := by
  unfold lead
  split_ifs with hlines
  · rfl
  · cases text with
    | nil => exact skipBreak_of_ne (by decide) (by decide) _
    | cons c text =>
      have hbreak : c ≠ '\n' := by
        rintro rfl
        exact hlines (by simp)
      rw [List.nil_append, writeLong]
      split_ifs with hquote hfew
      · rw [hquote]
        exact skipBreak_of_ne (by decide) (by decide) _
      · exact absurd (Nat.zero_lt_two) hfew
      · rw [List.append_assoc]
        exact skipBreak_writeChar c _

theorem skipBreak_lead_append {text : List Char} (hcontrol : ∀ c ∈ text, isControl c = false ∨ c = '\n')
    (after : List Char) : skipBreak (lead text ++ (text ++ '\'' :: after)) = text ++ '\'' :: after := by
  unfold lead
  split_ifs with hlines
  · rfl
  · cases text with
    | nil => exact skipBreak_of_ne (by decide) (by decide) _
    | cons c text =>
      have hbreak : c ≠ '\n' := by
        rintro rfl
        exact hlines (by simp)
      have hplain := ((List.forall_mem_cons.1 hcontrol).1).resolve_right hbreak
      exact skipBreak_of_ne hbreak (by rintro rfl; cases hplain) _

theorem hasRun_one {quote : Char} {text : List Char} (h : hasRun quote 1 text = false) : quote ∉ text := by
  induction text with
  | nil => exact List.not_mem_nil
  | cons c text ih =>
    rw [hasRun, Bool.or_eq_false_iff] at h
    rw [List.mem_cons, not_or]
    exact ⟨by simpa [List.replicate, List.isPrefixOf] using h.1, ih h.2⟩

theorem not_control_of_not_needsEscape {text : List Char} (h : needsEscape text = false) :
    ∀ c ∈ text, isControl c = false ∨ c = '\n' := by
  intro c hc
  have hescape := List.any_eq_false.1 h c hc
  cases hcontrol : isControl c <;> simp_all

/-- Between apostrophes stands only what needs no escape: between single ones a text that is not empty and has
no line breaks and no apostrophes, between three of them a text without three in a row. -/
theorem formOf_cases (text : List Char) : formOf text = .basic ∨ formOf text = .longBasic ∨
    (formOf text = .literal ∧ text ≠ [] ∧ ∀ c ∈ text, c ≠ '\'' ∧ isControl c = false) ∨
    (formOf text = .longLiteral ∧ hasRun '\'' 3 text = false ∧ needsEscape text = false) := by
  have hescaped : (if text.contains '\n' then StringForm.longBasic else .basic) = .basic ∨
      (if text.contains '\n' then StringForm.longBasic else .basic) = .longBasic := by
    split
    · exact Or.inr rfl
    · exact Or.inl rfl
  unfold formOf
  dsimp only
  by_cases hescape : needsEscape text = true
  · rw [if_pos hescape]
    exact hescaped.imp_right Or.inl
  rw [if_neg hescape]
  by_cases hbasic : (!text.contains '\\' && !hasRun '"' 1 text && !text.contains '\n') = true
  · exact Or.inl (if_pos hbasic)
  rw [if_neg hbasic]
  by_cases hliteral : (!hasRun '\'' 1 text && !text.contains '\n') = true
  · refine Or.inr (Or.inr (Or.inl ⟨if_pos hliteral, ?_, fun c hc => ⟨?_, ?_⟩⟩))
    · rintro rfl
      exact hbasic rfl
    all_goals simp only [Bool.and_eq_true, Bool.not_eq_true'] at hliteral
    · rintro rfl
      exact hasRun_one hliteral.1 hc
    · refine (not_control_of_not_needsEscape (Bool.eq_false_iff.2 hescape) c hc).resolve_right ?_
      rintro rfl
      rw [List.contains_iff_mem.2 hc] at hliteral
      cases hliteral.2
  rw [if_neg hliteral]
  by_cases hlong : (!text.contains '\\' && !hasRun '"' 3 text) = true
  · exact Or.inr (Or.inl (if_pos hlong))
  rw [if_neg hlong]
  by_cases hruns : (!hasRun '\'' 3 text) = true
  · rw [if_pos hruns]
    exact Or.inr (Or.inr (Or.inr ⟨rfl, Bool.not_eq_true' _ ▸ hruns, Bool.eq_false_iff.2 hescape⟩))
  · rw [if_neg hruns]
    exact hescaped.imp_right Or.inl

theorem takeString_basic (text : List Char) {after : List Char} (hquote : after.head? ≠ some '"') :
    takeString (writeAs .basic text ++ after) = some (text, after) := by
  have hread := takeBasic_flatMap_writeChar text after
  have hnext : ∀ others, text.flatMap writeChar ++ '"' :: after ≠ '"' :: '"' :: others := by
    intro others heq
    cases text with
    | nil => exact hquote (congrArg List.head? (List.cons.inj heq).2)
    | cons c text =>
      obtain ⟨d, ds, hwrite, hd⟩ := exists_writeChar_eq_cons c
      rw [List.flatMap_cons, hwrite] at heq
      exact hd (List.cons.inj heq).1
  rw [← hread]
  simp only [writeAs, List.cons_append, List.append_assoc, List.nil_append]
  rw [takeString]
  exact fun rest heq => hnext rest heq

theorem takeString_literal {text : List Char} (hnil : text ≠ [])
    (hplain : ∀ c ∈ text, c ≠ '\'' ∧ isControl c = false) (after : List Char) :
    takeString (writeAs .literal text ++ after) = some (text, after) := by
  have hread := takeLiteral_append hplain after
  have hnext : ∀ others, text ++ '\'' :: after ≠ '\'' :: '\'' :: others := by
    intro others heq
    obtain ⟨c, text, rfl⟩ := List.exists_cons_of_ne_nil hnil
    exact (hplain c List.mem_cons_self).1 (List.cons.inj heq).1
  rw [← hread]
  simp only [writeAs, List.cons_append, List.append_assoc, List.nil_append]
  rw [takeString]
  exact fun rest heq => hnext rest heq

/-- Whatever a text is, what is written for it is read as this text. -/
theorem takeString_writeAs (text : List Char) {after : List Char} (hquote : after.head? ≠ some '"')
    (hapostrophe : after.head? ≠ some '\'') :
    takeString (writeAs (formOf text) text ++ after) = some (text, after) := by
  rcases formOf_cases text with hform | hform | ⟨hform, hnil, hplain⟩ | ⟨hform, hruns, hescape⟩ <;>
    rw [hform]
  · exact takeString_basic text hquote
  · rw [← takeLongBasic_writeLong hquote text (Nat.zero_le 2),
      ← skipBreak_lead_writeLong text ('"' :: '"' :: after)]
    simp only [writeAs, List.append_assoc]
    rfl
  · exact takeString_literal hnil hplain after
  · have hplain := not_control_of_not_needsEscape hescape
    rw [← takeLongLiteral_append hapostrophe hruns hplain,
      ← skipBreak_lead_append hplain ('\'' :: '\'' :: after)]
    simp only [writeAs, List.append_assoc]
    rfl

/-- Whatever a text is, the string that is written for it is read as this text. -/
theorem takeString_writeString (text : String) {after : List Char} (hquote : after.head? ≠ some '"')
    (hapostrophe : after.head? ≠ some '\'') :
    takeString ((writeString text).toList ++ after) = some (text.toList, after) := by
  rw [writeString, String.toList_ofList]
  exact takeString_writeAs text.toList hquote hapostrophe

/-- A written text begins with a quote or an apostrophe. -/
theorem exists_writeString_eq_cons (text : String) :
    ∃ cs, (writeString text).toList = '"' :: cs ∨ (writeString text).toList = '\'' :: cs := by
  rw [writeString, String.toList_ofList]
  cases formOf text.toList with
  | basic | longBasic => exact ⟨_, Or.inl rfl⟩
  | literal | longLiteral => exact ⟨_, Or.inr rfl⟩

end Toml

end ShapeGraph
