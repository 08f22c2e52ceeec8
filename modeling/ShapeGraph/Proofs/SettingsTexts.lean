import ShapeGraph.Proofs.NumberTexts
import ShapeGraph.Proofs.TomlTexts
import ShapeGraph.Settings.Printer
import ShapeGraph.Settings.Sources

/-!
# The text of saved settings

Saved settings are a text with a header for each section and a line for each setting.  Read as a settings
file, it says the settings that it was written for, and nothing else.

## Main definitions

* `Toml.Spells` — a value is read from the characters that spell it.
* `Settings.savedLayer` — what saved settings say.

## Main results

* `Toml.takeScalar_toDigits` — a whole number is read back.
* `Toml.takeStatement_entry`, `Toml.takeStatement_header` — lines are read one at a time.
* `Settings.parse?_toText` — the text of saved settings says what was saved.

## Design

Digits could be the beginning of a date or a time.  They are not, as no hyphen and no colon stands in the few
characters that follow them.
-/

set_option autoImplicit false

namespace ShapeGraph

namespace Toml

/-! ## Runs of characters -/

/-- A run of characters ends where the next character is of another kind. -/
theorem span_append {p : Char → Bool} {cs after : List Char} (hcs : ∀ c ∈ cs, p c = true)
    (hend : ∀ c ∈ after.head?, p c = false) :
    (cs ++ after).takeWhile p = cs ∧ (cs ++ after).dropWhile p = after := by
  rw [List.takeWhile_append_of_pos hcs, List.dropWhile_append_of_pos hcs]
  cases after with
  | nil => exact ⟨List.append_nil cs, rfl⟩
  | cons c after =>
    have hc : p c = false := hend c rfl
    exact ⟨by rw [List.takeWhile_cons_of_neg (Bool.eq_false_iff.1 hc), List.append_nil],
      List.dropWhile_cons_of_neg (Bool.eq_false_iff.1 hc)⟩

/-! ## Whole numbers -/

/-- A number other than zero does not begin with zero. -/
theorem head?_toDigits_ne_zero {n : Nat} (h : 0 < n) : (Nat.toDigits 10 n).head? ≠ some '0' := by
  induction n using Nat.strongRecOn with
  | ind n ih =>
    rw [Nat.toDigits_eq_if (by decide)]
    split_ifs with hsmall
    · have hdigits : ∀ m < 10, 0 < m → [m.digitChar].head? ≠ some '0' := by decide
      exact hdigits n hsmall h
    · rw [List.head?_append_of_ne_nil _ Nat.toDigits_ne_nil]
      exact ih (n / 10) (by omega) (by omega)

theorem plainDigits?_of_allDigits {cs : List Char} (hne : cs ≠ []) (h : AllDigits cs) :
    plainDigits? Char.isDigit cs = some cs := by
  induction cs with
  | nil => exact absurd rfl hne
  | cons c cs ih =>
    have hc : c.isDigit = true := h c List.mem_cons_self
    have hcs : AllDigits cs := fun d hd => h d (List.mem_cons_of_mem c hd)
    cases cs with
    | nil => exact if_pos hc
    | cons d ds =>
      have hd : d ≠ '_' := by
        rintro rfl
        exact absurd (hcs '_' List.mem_cons_self) (by decide)
      rw [plainDigits?]
      · rw [if_pos hc, ih (List.cons_ne_nil d ds) hcs]
        rfl
      · exact hd

theorem decimalDigits?_toDigits (n : Nat) : decimalDigits? (Nat.toDigits 10 n) = some (Nat.toDigits 10 n) := by
  have hlead : ¬((Nat.toDigits 10 n).length > 1 ∧ (Nat.toDigits 10 n).head? = some '0') := by
    rintro ⟨hlength, hzero⟩
    rcases Nat.eq_zero_or_pos n with rfl | hpos
    · exact absurd hlength (by decide)
    · exact head?_toDigits_ne_zero hpos hzero
  rw [decimalDigits?, plainDigits?_of_allDigits Nat.toDigits_ne_nil (.toDigits n)]
  exact if_neg hlead

theorem digitsValue_toDigits (n : Nat) : Extended.digitsValue (Nat.toDigits 10 n) = n :=
  Nat.ofDigitChars_ten_toDigits

/-- Among digits, a character that is none does not stand. -/
theorem cons_ne_of_allDigits {c : Char} {cs ds : List Char} (h : AllDigits ds) (hc : c.isDigit = false) :
    ds ≠ c :: cs := by
  rintro rfl
  rw [h c List.mem_cons_self] at hc
  cases hc

theorem takeSign_of_allDigits {ds : List Char} (h : AllDigits ds) : Extended.takeSign ds = (false, ds) := by
  unfold Extended.takeSign
  split
  · exact absurd rfl (cons_ne_of_allDigits h (by decide))
  · exact absurd rfl (cons_ne_of_allDigits h (by decide))
  · rfl

theorem signed?_toDigits {n : Nat} (h : (n : Int) ≤ Int64.maxValue.toInt) :
    signed? false (Nat.toDigits 10 n) = some (.int n) := by
  have hdigits := AllDigits.toDigits n
  have hmin : Int64.minValue.toInt ≤ 0 := by decide
  have hbounded : bounded? n = some (.int n) := if_pos ⟨by omega, h⟩
  rw [signed?, if_neg (cons_ne_of_allDigits hdigits (by decide)),
    if_neg (cons_ne_of_allDigits hdigits (by decide)), decimalDigits?_toDigits]
  simp only [digitsValue_toDigits]
  exact hbounded

theorem scalar?_toDigits {n : Nat} (h : (n : Int) ≤ Int64.maxValue.toInt) :
    scalar? (Nat.toDigits 10 n) = some (.int n) := by
  have hdigits := AllDigits.toDigits n
  have hbase : ∀ c cs, c.isDigit = false → Nat.toDigits 10 n ≠ '0' :: c :: cs := by
    intro c cs hc heq
    rw [heq] at hdigits
    rw [hdigits c (by simp)] at hc
    cases hc
  unfold scalar?
  split
  · exact absurd ‹_› (cons_ne_of_allDigits hdigits (by decide))
  · exact absurd ‹_› (cons_ne_of_allDigits hdigits (by decide))
  · exact absurd ‹_› (hbase 'x' _ (by decide))
  · exact absurd ‹_› (hbase 'o' _ (by decide))
  · exact absurd ‹_› (hbase 'b' _ (by decide))
  · rw [takeSign_of_allDigits hdigits]
    exact signed?_toDigits h

/-! ## Neither dates nor times -/

theorem takeMoment_eq_none {cs : List Char} (hhyphen : cs[4]? ≠ some '-') (hcolon : cs[2]? ≠ some ':') :
    takeMoment cs = none := by
  have hdate : takeDate cs = none := by
    unfold takeDate
    split
    · exact absurd rfl hhyphen
    · rfl
  have htime : takeTime cs = none := by
    unfold takeTime
    split
    · exact absurd rfl hcolon
    · rfl
  rw [takeMoment, hdate]
  exact htime

/-- Behind at least one digit, and with neither hyphens nor colons among the next four characters, no date or
time is read. -/
theorem takeMoment_append_eq_none {ds after : List Char} (hne : ds ≠ []) (hds : AllDigits ds)
    (hafter : ∀ c ∈ after.take 4, c ≠ '-' ∧ c ≠ ':') : takeMoment (ds ++ after) = none := by
  have hplain : ∀ i < 5, ∀ c, (ds ++ after)[i]? = some c → c ≠ '-' ∧ c ≠ ':' := by
    intro i hi c hc
    have hpos := List.length_pos_of_ne_nil hne
    rcases Nat.lt_or_ge i ds.length with hlt | hge
    · rw [List.getElem?_append_left hlt] at hc
      have hdigit := hds c (List.mem_of_getElem? hc)
      constructor <;> rintro rfl <;> cases hdigit
    · rw [List.getElem?_append_right hge] at hc
      refine hafter c (List.mem_of_getElem? (i := i - ds.length) ?_)
      rw [List.getElem?_take_of_lt (by omega)]
      exact hc
  exact takeMoment_eq_none (fun h => (hplain 4 (by decide) _ h).1 rfl)
    (fun h => (hplain 2 (by decide) _ h).2 rfl)

/-- A whole number is read back from its digits. -/
theorem takeScalar_toDigits {n : Nat} (h : (n : Int) ≤ Int64.maxValue.toInt) {after : List Char}
    (hend : ∀ c ∈ after.head?, isScalarChar c = false) (hafter : ∀ c ∈ after.take 4, c ≠ '-' ∧ c ≠ ':') :
    takeScalar (Nat.toDigits 10 n ++ after) = some (.int n, after) := by
  have hdigits : ∀ c ∈ Nat.toDigits 10 n, isScalarChar c = true := by
    intro c hc
    have hdigit : c.isDigit = true := AllDigits.toDigits n c hc
    simp [isScalarChar, Char.isAlphanum, hdigit]
  obtain ⟨hword, hrest⟩ := span_append hdigits hend
  rw [takeScalar, takeMoment_append_eq_none Nat.toDigits_ne_nil (.toDigits n) hafter]
  simp only [hword, hrest, scalar?_toDigits h]
  rfl

/-! ## Values -/

/-- A value is read from the characters that spell it, if something follows. -/
structure Spells (cs : List Char) (value : Setting) (after : List Char) : Prop where
  /-- They do not begin with blanks. -/
  start : skipBlanks (cs ++ after) = cs ++ after
  /-- They are read as the value. -/
  value : ∀ fuel, takeValue (fuel + 1) depthLimit (cs ++ after) = some (value, after)

theorem skipBlanks_of_ne {c : Char} (hblank : c ≠ ' ') (htab : c ≠ '\t') (rest : List Char) :
    skipBlanks (c :: rest) = c :: rest :=
  List.dropWhile_cons_of_neg (by simp [hblank, htab])

theorem spells_toDigits {n : Nat} (h : (n : Int) ≤ Int64.maxValue.toInt) {after : List Char}
    (hend : ∀ c ∈ after.head?, isScalarChar c = false) (hafter : ∀ c ∈ after.take 4, c ≠ '-' ∧ c ≠ ':') :
    Spells (Nat.toDigits 10 n) (.int n) after := by
  obtain ⟨c, cs, hcons⟩ := List.exists_cons_of_ne_nil (Nat.toDigits_ne_nil (n := n) (b := 10))
  have hfirst : ∀ d, d.isDigit = false → c ≠ d := by
    rintro d hd rfl
    exact cons_ne_of_allDigits (.toDigits n) hd hcons
  refine ⟨?_, fun fuel => ?_⟩
  · rw [hcons, List.cons_append]
    exact skipBlanks_of_ne (hfirst ' ' rfl) (hfirst '\t' rfl) _
  · rw [← takeScalar_toDigits h hend hafter, hcons, List.cons_append, takeValue]
    · exact fun rest heq => hfirst '[' rfl (List.cons.inj heq).1
    · exact fun rest heq => hfirst '\x7b' rfl (List.cons.inj heq).1
    · exact fun rest heq => hfirst '"' rfl (List.cons.inj heq).1
    · exact fun rest heq => hfirst '\'' rfl (List.cons.inj heq).1

theorem spells_truthText (b : Bool) (after : List Char) :
    Spells (Settings.truthText b).toList (.bool b) ('\n' :: after) := by
  cases b with
  | true => exact ⟨rfl, fun fuel => rfl⟩
  | false => exact ⟨rfl, fun fuel => rfl⟩

theorem spells_writeString (text : String) (after : List Char) :
    Spells (writeString text).toList (.text text) ('\n' :: after) := by
  have hread : takeString ((writeString text).toList ++ '\n' :: after) = some (text.toList, '\n' :: after) :=
    takeString_writeString text (by simp) (by simp)
  rcases exists_writeString_eq_cons text with ⟨cs, hcons | hcons⟩ <;> rw [hcons] at hread ⊢
  all_goals
    refine ⟨skipBlanks_of_ne (by decide) (by decide) _, fun fuel => ?_⟩
    rw [List.cons_append] at hread ⊢
    rw [takeValue, hread, Option.map_some]
    simp only [String.ofList_toList]

/-! ## Lines -/

/-- A name that is a key without quotes. -/
def IsBare (name : String) : Prop := name.toList ≠ [] ∧ ∀ c ∈ name.toList, isBareKeyChar c = true

instance (name : String) : Decidable (IsBare name) :=
  decidable_of_iff (name.toList ≠ [] ∧ name.toList.all isBareKeyChar = true)
    (and_congr_right' List.all_eq_true)

/-- A bare name begins with a character that begins neither a string, nor a header, nor a comment, and that is
no blank. -/
theorem IsBare.exists_eq_cons {name : String} (h : IsBare name) : ∃ c cs, name.toList = c :: cs ∧
    ∀ d ∈ [' ', '\t', '\n', '\r', '#', '[', '"', '\''], c ≠ d := by
  obtain ⟨c, cs, hcons⟩ := List.exists_cons_of_ne_nil h.1
  refine ⟨c, cs, hcons, ?_⟩
  rintro d hd rfl
  have hbare : isBareKeyChar c = true := h.2 c (by rw [hcons]; exact List.mem_cons_self)
  have hmarks : ∀ d ∈ [' ', '\t', '\n', '\r', '#', '[', '"', '\''], isBareKeyChar d = false := by
    simp [isBareKeyChar]
  rw [hmarks c hd] at hbare
  cases hbare

theorem takeSimpleKey_bare {name : String} (h : IsBare name) {after : List Char}
    (hend : ∀ c ∈ after.head?, isBareKeyChar c = false) :
    takeSimpleKey (name.toList ++ after) = some (name, after) := by
  obtain ⟨hword, hrest⟩ := span_append h.2 hend
  obtain ⟨c, cs, hcons, hne⟩ := h.exists_eq_cons
  unfold takeSimpleKey
  split
  · next heq =>
    rw [hcons] at heq
    exact absurd (List.cons.inj heq).1 (hne '"' (by simp))
  · next heq =>
    rw [hcons] at heq
    exact absurd (List.cons.inj heq).1 (hne '\'' (by simp))
  · simp only [hword, hrest, String.ofList_toList]
    rw [if_neg]
    rw [hcons]
    exact Bool.false_ne_true

/-- A bare name is read as a key, with what follows it behind blanks. -/
theorem takePath_bare {name : String} (h : IsBare name) {after rest : List Char}
    (hend : ∀ c ∈ after.head?, isBareKeyChar c = false) (hskip : skipBlanks after = rest)
    (hdot : rest.head? ≠ some '.') : takePath (name.toList ++ after) = some ([name], rest) := by
  obtain ⟨c, cs, hcons, hne⟩ := h.exists_eq_cons
  have hstart : skipBlanks (name.toList ++ after) = name.toList ++ after := by
    rw [hcons]
    exact skipBlanks_of_ne (hne ' ' (by simp)) (hne '\t' (by simp)) _
  have hkey : takeKey ((name.toList ++ after).length + 1) (name.toList ++ after) = some ([name], rest) := by
    rw [takeKey, hstart, takeSimpleKey_bare h hend]
    simp only [Option.bind_eq_bind, Option.bind_some, hskip]
    split
    · exact absurd rfl hdot
    · rfl
  rw [takePath, hkey]
  rfl

theorem endLine_newline (rest : List Char) : endLine ('\n' :: rest) = some rest := rfl

/-- The header of a section is read on its own. -/
theorem takeStatement_header {name : String} (h : IsBare name) (rest : List Char) :
    takeStatement ('[' :: (name.toList ++ ']' :: '\n' :: rest)) = some (.header [name], rest) := by
  have hpath : takePath (name.toList ++ ']' :: '\n' :: rest) = some ([name], ']' :: '\n' :: rest) :=
    takePath_bare h (by simp [isBareKeyChar]) (skipBlanks_of_ne (by decide) (by decide) _) (by simp)
  obtain ⟨c, cs, hcons, hne⟩ := h.exists_eq_cons
  rw [takeStatement, hpath]
  · simp only [Option.bind_eq_bind, Option.bind_some, endLine_newline]
    rfl
  · intro rest heq
    rw [hcons] at heq
    exact hne '[' (by simp) (List.cons.inj heq).1

/-- A line that sets a value is read on its own. -/
theorem takeStatement_entry {name : String} (h : IsBare name) {cs rest : List Char} {value : Setting}
    (hvalue : Spells cs value ('\n' :: rest)) :
    takeStatement (name.toList ++ ' ' :: '=' :: ' ' :: (cs ++ '\n' :: rest)) =
      some (.entry [name] value, rest) := by
  have hpath : takePath (name.toList ++ ' ' :: '=' :: ' ' :: (cs ++ '\n' :: rest)) =
      some ([name], '=' :: ' ' :: (cs ++ '\n' :: rest)) :=
    takePath_bare h (by simp [isBareKeyChar]) rfl (by simp)
  have hskip : skipBlanks (' ' :: (cs ++ '\n' :: rest)) = cs ++ '\n' :: rest := hvalue.start
  obtain ⟨c, ds, hcons, hne⟩ := h.exists_eq_cons
  have hbracket : ∀ others, name.toList ++ ' ' :: '=' :: ' ' :: (cs ++ '\n' :: rest) ≠ '[' :: others := by
    intro others heq
    rw [hcons] at heq
    exact hne '[' (by simp) (List.cons.inj heq).1
  rw [takeStatement, hpath]
  · simp only [Option.bind_eq_bind, Option.bind_some, hskip, hvalue.value, endLine_newline]
    rfl
  · exact fun others heq => hbracket _ heq
  · exact hbracket

/-! ## Lists of statements -/

/-- The first statement is read on its own, if it begins with no blank, line break or comment. -/
theorem takeStatements_cons {c : Char} {cs rest : List Char} {statement : Statement}
    (hstart : ∀ d ∈ [' ', '\t', '\n', '\r', '#'], c ≠ d)
    (h : takeStatement (c :: cs) = some (statement, rest)) (fuel : Nat) :
    takeStatements (fuel + 1) (c :: cs) = (takeStatements fuel rest).map (statement :: ·) := by
  have hskip : skipAll ((c :: cs).length + 1) (c :: cs) = some (c :: cs) := by
    rw [skipAll, skipBlanks_of_ne (hstart ' ' (by simp)) (hstart '\t' (by simp))]
    split
    · next heq => exact absurd (List.cons.inj heq).1 (hstart '\n' (by simp))
    · next heq => exact absurd (List.cons.inj heq).1 (hstart '\r' (by simp))
    · next heq => exact absurd (List.cons.inj heq).1 (hstart '#' (by simp))
    · rfl
  rw [takeStatements, hskip]
  simp only [Option.bind_eq_bind, Option.bind_some, h]
  cases takeStatements fuel rest <;> rfl

theorem takeStatements_header {name : String} (h : IsBare name) (rest : List Char) (fuel : Nat) :
    takeStatements (fuel + 1) ('[' :: (name.toList ++ ']' :: '\n' :: rest)) =
      (takeStatements fuel rest).map (.header [name] :: ·) :=
  takeStatements_cons (by simp) (takeStatement_header h rest) fuel

theorem takeStatements_entry {name : String} (h : IsBare name) {cs rest : List Char} {value : Setting}
    (hvalue : Spells cs value ('\n' :: rest)) (fuel : Nat) :
    takeStatements (fuel + 1) (name.toList ++ ' ' :: '=' :: ' ' :: (cs ++ '\n' :: rest)) =
      (takeStatements fuel rest).map (.entry [name] value :: ·) := by
  obtain ⟨c, ds, hcons, hne⟩ := h.exists_eq_cons
  have hentry := takeStatement_entry h hvalue
  rw [hcons, List.cons_append] at hentry ⊢
  refine takeStatements_cons (fun d hd => hne d ?_) hentry fuel
  simp only [List.mem_cons, List.not_mem_nil, or_false] at hd ⊢
  tauto

/-- An empty line before a header is passed over. -/
theorem takeStatements_newline (rest : List Char) (fuel : Nat) :
    takeStatements (fuel + 1) ('\n' :: '[' :: rest) = takeStatements (fuel + 1) ('[' :: rest) := rfl

theorem takeStatements_nil (fuel : Nat) : takeStatements (fuel + 1) [] = some [] := rfl

end Toml

/-! ## The text of saved settings -/

namespace Settings

/-- What saved settings say about conversions. -/
def savedConvert (s : Settings) : Layer :=
  [("max_depth", .int s.maxDepth), ("include_definitions", .bool s.includeDefinitions),
    ("root_name", .text s.rootName)]

/-- What saved settings say about the output. -/
def savedOutput (s : Settings) : Layer := [("format", .text s.format.name), ("pretty", .bool s.pretty)]

/-- What saved settings say about logging. -/
def savedLogging (s : Settings) : Layer := [("level", .text s.logLevel)]

/-- What saved settings say. -/
def savedLayer (s : Settings) : Layer :=
  [("convert", .table s.savedConvert), ("output", .table s.savedOutput), ("logging", .table s.savedLogging)]

/-- The statements that saved settings consist of. -/
def savedStatements (s : Settings) : List Toml.Statement :=
  [.header ["convert"], .entry ["max_depth"] (.int s.maxDepth),
    .entry ["include_definitions"] (.bool s.includeDefinitions), .entry ["root_name"] (.text s.rootName),
    .header ["output"], .entry ["format"] (.text s.format.name), .entry ["pretty"] (.bool s.pretty),
    .header ["logging"], .entry ["level"] (.text s.logLevel)]

theorem collect_savedStatements (s : Settings) : Toml.collect s.savedStatements = some s.savedLayer := rfl

theorem toList_toText (s : Settings) : s.toText.toList =
    '[' :: ("convert".toList ++ ']' :: '\n' ::
      ("max_depth".toList ++ ' ' :: '=' :: ' ' :: (Nat.toDigits 10 s.maxDepth ++ '\n' ::
      ("include_definitions".toList ++ ' ' :: '=' :: ' ' :: ((truthText s.includeDefinitions).toList ++ '\n' ::
      ("root_name".toList ++ ' ' :: '=' :: ' ' :: ((Toml.writeString s.rootName).toList ++ '\n' ::
      '\n' :: '[' :: ("output".toList ++ ']' :: '\n' ::
      ("format".toList ++ ' ' :: '=' :: ' ' :: ((Toml.writeString s.format.name).toList ++ '\n' ::
      ("pretty".toList ++ ' ' :: '=' :: ' ' :: ((truthText s.pretty).toList ++ '\n' ::
      '\n' :: '[' :: ("logging".toList ++ ']' :: '\n' ::
      ("level".toList ++ ' ' :: '=' :: ' ' :: ((Toml.writeString s.logLevel).toList ++ ['\n']))))))))))))))) := by
  have hdigits : (toString s.maxDepth).toList = Nat.toDigits 10 s.maxDepth := Nat.toList_repr
  delta toText line
  simp only [String.toList_append, hdigits, List.append_assoc]
  rfl

theorem takeStatements_toText {s : Settings} (h : s.maxDepth ≤ maxSaved) (fuel : Nat) :
    Toml.takeStatements (fuel + 10) s.toText.toList = some s.savedStatements := by
  have hdepth : (s.maxDepth : Int) ≤ Int64.maxValue.toInt := by
    have hmax : (maxSaved : Int) = Int64.maxValue.toInt := by decide
    omega
  rw [toList_toText, Toml.takeStatements_header (by decide),
    Toml.takeStatements_entry (by decide) (Toml.spells_toDigits hdepth ?_ ?_),
    Toml.takeStatements_entry (by decide) (Toml.spells_truthText _ _),
    Toml.takeStatements_entry (by decide) (Toml.spells_writeString _ _),
    Toml.takeStatements_newline, Toml.takeStatements_header (by decide),
    Toml.takeStatements_entry (by decide) (Toml.spells_writeString _ _),
    Toml.takeStatements_entry (by decide) (Toml.spells_truthText _ _),
    Toml.takeStatements_newline, Toml.takeStatements_header (by decide),
    Toml.takeStatements_entry (by decide) (Toml.spells_writeString _ _), Toml.takeStatements_nil]
  · rfl
  · rintro c ⟨⟩
    decide
  · show ∀ c ∈ ['\n', 'i', 'n', 'c'], c ≠ '-' ∧ c ≠ ':'
    simp

/-- The text of saved settings says what was saved. -/
theorem parse?_toText {s : Settings} (h : s.maxDepth ≤ maxSaved) :
    parse? .toml s.toText = some s.savedLayer := by
  have hmark : withoutMark s.toText = s.toText := by
    unfold withoutMark
    rw [toList_toText]
    rfl
  have hlength : s.toText.length + 1 = (s.toText.length - 9) + 10 := by
    have hheader : "[convert]\n".length = 10 := by decide
    delta toText
    simp only [String.length_append, hheader]
    omega
  show Toml.parse? (withoutMark s.toText) = _
  rw [hmark, Toml.parse?, hlength, takeStatements_toText h, Option.bind_some, collect_savedStatements]

end Settings

end ShapeGraph
