import ShapeGraph.Json.Parser
import ShapeGraph.Json.Printer
import ShapeGraph.Proofs.NumberTexts

/-!
# JSON texts tell where they end

The text of a value says which value it is, and also where it ends when something else follows that could
not be part of a number.  So texts of values that follow one another can be told apart.

## Main definitions

* `Json.Normalised` — all fractional numbers in a value are normalised.
* `Json.kindOf?` — the kind of value that begins with some character.
* `Json.Delimited` — what follows cannot be part of a number.

## Main results

* `Json.stringRest_escape` — a string that is written is read back.
* `Json.eq_of_compact_append_eq` — texts of values can be told from what follows them.

## Design

Items and members are looked at together with the mark before and the bracket behind them, so that the empty
list is no special case beyond the first one.
-/

set_option autoImplicit false

namespace ShapeGraph

namespace Json

/-! ## Normalised values -/

mutual

/-- All fractional numbers in the value are normalised. -/
def Normalised : Json → Prop
  | .null | .bool _ | .str _ => True
  | .num n => n.Normalised
  | .arr items => ItemsNormalised items
  | .obj members => MembersNormalised members

/-- All fractional numbers in the items are normalised. -/
def ItemsNormalised : List Json → Prop
  | [] => True
  | v :: rest => v.Normalised ∧ ItemsNormalised rest

/-- All fractional numbers in the members are normalised. -/
def MembersNormalised : List (String × Json) → Prop
  | [] => True
  | (_, v) :: rest => v.Normalised ∧ MembersNormalised rest

end

/-! ## Strings -/

/-- A character is written as it is, as an escape of one letter, or by its number. -/
theorem escapeChar_cases (c : Char) :
    (escapeChar c = [c] ∧ c ≠ '"' ∧ c ≠ '\\' ∧ 32 ≤ c.toNat) ∨
      (∃ e, escapeChar c = ['\\', e] ∧ simpleEscape? e = some c) ∨
      (escapeChar c = ['\\', 'u', '0', '0', hexDigit (c.toNat / 16), hexDigit c.toNat] ∧ c.toNat < 32) := by
  have hsimple : ∀ {d e : Char}, escapeChar d = ['\\', e] → simpleEscape? e = some d → c = d →
      ∃ e, escapeChar c = ['\\', e] ∧ simpleEscape? e = some c := by
    rintro d e hescape hread rfl
    exact ⟨e, hescape, hread⟩
  by_cases hquote : c = '"'
  · exact Or.inr (Or.inl (hsimple rfl rfl hquote))
  by_cases hbackslash : c = '\\'
  · exact Or.inr (Or.inl (hsimple rfl rfl hbackslash))
  by_cases hbackspace : c.toNat = 8
  · exact Or.inr (Or.inl (hsimple rfl rfl ((Char.ofNat_toNat c).symm.trans (congrArg Char.ofNat hbackspace))))
  by_cases hfeed : c.toNat = 12
  · exact Or.inr (Or.inl (hsimple rfl rfl ((Char.ofNat_toNat c).symm.trans (congrArg Char.ofNat hfeed))))
  by_cases hnewline : c = '\n'
  · exact Or.inr (Or.inl (hsimple rfl rfl hnewline))
  by_cases hreturn : c = '\r'
  · exact Or.inr (Or.inl (hsimple rfl rfl hreturn))
  by_cases htab : c = '\t'
  · exact Or.inr (Or.inl (hsimple rfl rfl htab))
  unfold escapeChar
  rw [if_neg hquote, if_neg hbackslash, if_neg hbackspace, if_neg hfeed, if_neg hnewline, if_neg hreturn,
    if_neg htab]
  by_cases hcontrol : c.toNat < 32
  · exact Or.inr (Or.inr ⟨if_pos hcontrol, hcontrol⟩)
  · exact Or.inl ⟨if_neg hcontrol, hquote, hbackslash, not_lt.1 hcontrol⟩

theorem hexQuad?_of_lt {n : ℕ} (h : n < 32) : hexQuad? '0' '0' (hexDigit (n / 16)) (hexDigit n) = some n := by
  revert n
  decide

theorem stringRest_plain {c : Char} (hquote : c ≠ '"') (hbackslash : c ≠ '\\') (hprintable : 32 ≤ c.toNat)
    (rest : List Char) :
    stringRest (c :: rest) = (stringRest rest).map fun p => (c :: p.1, p.2) := by
  rw [stringRest]
  · rw [if_neg (by rintro (h | h) <;> [omega; exact hbackslash h])]
    cases stringRest rest <;> rfl
  all_goals simp_all

theorem stringRest_simple {c e : Char} (h : simpleEscape? c = some e) (rest : List Char) :
    stringRest ('\\' :: c :: rest) = (stringRest rest).map fun p => (e :: p.1, p.2) := by
  have hu : c ≠ 'u' := by
    rintro rfl
    cases h
  rw [stringRest]
  · rw [h]
    cases stringRest rest <;> rfl
  all_goals simp_all

theorem stringRest_unicode {a b c d : Char} {n : ℕ} (h : hexQuad? a b c d = some n) (hn : n < 32)
    (rest : List Char) : stringRest ('\\' :: 'u' :: a :: b :: c :: d :: rest) =
      (stringRest rest).map fun p => (Char.ofNat n :: p.1, p.2) := by
  have hhigh : isHighSurrogate n = false := by
    unfold isHighSurrogate
    simp
    omega
  have hlow : isLowSurrogate n = false := by
    unfold isLowSurrogate
    simp
    omega
  by_cases hpair : ∃ e f g h rest', rest = '\\' :: 'u' :: e :: f :: g :: h :: rest'
  · obtain ⟨e, f, g, k, rest', rfl⟩ := hpair
    rw [stringRest, h]
    simp only [Option.bind_eq_bind, Option.bind_some, hhigh, hlow]
    cases stringRest ('\\' :: 'u' :: e :: f :: g :: k :: rest') <;> rfl
  · rw [stringRest]
    · rw [h]
      simp only [Option.bind_eq_bind, Option.bind_some, hhigh, hlow]
      cases stringRest rest <;> rfl
    · exact fun e f g k rest' heq => hpair ⟨e, f, g, k, rest', heq⟩

/-- A character that is written is read back. -/
theorem stringRest_escapeChar (c : Char) (rest : List Char) :
    stringRest (escapeChar c ++ rest) = (stringRest rest).map fun p => (c :: p.1, p.2) := by
  rcases escapeChar_cases c with ⟨heq, hquote, hbackslash, hprintable⟩ | ⟨e, heq, hread⟩ | ⟨heq, hcontrol⟩
  · rw [heq]
    exact stringRest_plain hquote hbackslash hprintable rest
  · rw [heq]
    exact stringRest_simple hread rest
  · have hread := stringRest_unicode (hexQuad?_of_lt hcontrol) hcontrol rest
    rw [Char.ofNat_toNat] at hread
    rw [heq]
    exact hread

/-- A string that is written is read back up to its closing quote. -/
theorem stringRest_escape (cs rest : List Char) :
    stringRest (cs.flatMap escapeChar ++ '"' :: rest) = some (cs, rest) := by
  induction cs with
  | nil => rfl
  | cons c cs ih => rw [List.flatMap_cons, List.append_assoc, stringRest_escapeChar, ih]; rfl

/-- The text of a string, character by character. -/
theorem toList_quote_append (text : String) (rest : List Char) :
    (quote text).toList ++ rest = '"' :: (text.toList.flatMap escapeChar ++ '"' :: rest) := by
  unfold quote
  rw [String.toList_ofList]
  simp

/-- Strings can be told from what follows them. -/
theorem eq_of_quote_append_eq {text other : String} {rest rest' : List Char}
    (h : (quote text).toList ++ rest = (quote other).toList ++ rest') : text = other ∧ rest = rest' := by
  rw [toList_quote_append, toList_quote_append] at h
  have hread := stringRest_escape text.toList rest
  rw [List.cons_injective h, stringRest_escape] at hread
  obtain ⟨htext, hrest⟩ := Prod.mk.inj (Option.some_inj.1 hread)
  exact ⟨(String.toList_injective htext).symm, hrest.symm⟩

/-! ## Beginnings -/

/-- The kind of value that begins with a character, if any does. -/
def kindOf? (c : Char) : Option Kind :=
  if c = 'n' then some .null
  else if c = 't' ∨ c = 'f' then some .boolean
  else if c = '"' then some .string
  else if c = '[' then some .array
  else if c = '\x7b' then some .object
  else if c.isDigit ∨ c = '-' then some .number
  else none

/-- The first character of a text says of which kind the value is. -/
theorem exists_compact_eq_cons (v : Json) :
    ∃ c rest, v.compact.toList = c :: rest ∧ kindOf? c = some v.kind := by
  cases v with
  | null => exact ⟨'n', _, rfl, rfl⟩
  | bool b => cases b <;> exact ⟨_, _, rfl, rfl⟩
  | num n =>
    obtain ⟨c, rest, htext, hc⟩ := n.exists_toList_render
    refine ⟨c, rest, htext, ?_⟩
    have hne : ∀ d : Char, d.isDigit = false → d ≠ '-' → c ≠ d := by
      rintro d hd hminus rfl
      exact hc.elim (fun h => by rw [hd] at h; cases h) hminus
    simp [kindOf?, hne, hc, kind]
  | str text =>
    refine ⟨'"', text.toList.flatMap escapeChar ++ ['"'], ?_, rfl⟩
    simpa [compact] using toList_quote_append text []
  | arr items =>
    refine ⟨'[', (compactItems items).toList ++ [']'], ?_, rfl⟩
    rw [compact, String.toList_append, String.toList_append]
    rfl
  | obj members =>
    refine ⟨'\x7b', (compactMembers members).toList ++ ['\x7d'], ?_, rfl⟩
    rw [compact, String.toList_append, String.toList_append]
    rfl

theorem kind_eq_of_compact_append_eq {v w : Json} {rest rest' : List Char}
    (h : v.compact.toList ++ rest = w.compact.toList ++ rest') : v.kind = w.kind := by
  obtain ⟨c, cs, hc, hkind⟩ := exists_compact_eq_cons v
  obtain ⟨d, ds, hd, hkind'⟩ := exists_compact_eq_cons w
  rw [hc, hd] at h
  rw [(List.cons.inj h).1, hkind'] at hkind
  exact (Option.some_inj.1 hkind).symm

/-- No value begins with a closing bracket. -/
theorem compact_append_ne_cons {v : Json} {c : Char} (hc : kindOf? c = none) (cs rest : List Char) :
    v.compact.toList ++ cs ≠ c :: rest := by
  intro h
  obtain ⟨d, ds, hd, hkind⟩ := exists_compact_eq_cons v
  rw [hd] at h
  rw [(List.cons.inj h).1, hc] at hkind
  cases hkind

/-! ## Items and members -/

/-- The text of further items up to the closing bracket. -/
def followingItems : List Json → List Char
  | [] => [']']
  | v :: rest => ',' :: (v.compact.toList ++ followingItems rest)

/-- The text of items up to the closing bracket. -/
def enclosedItems : List Json → List Char
  | [] => [']']
  | v :: rest => v.compact.toList ++ followingItems rest

/-- The text of a member and what follows it. -/
def memberText (k : String) (v : Json) (rest : List Char) : List Char :=
  (quote k).toList ++ ':' :: (v.compact.toList ++ rest)

/-- The text of further members up to the closing brace. -/
def followingMembers : List (String × Json) → List Char
  | [] => ['\x7d']
  | (k, v) :: rest => ',' :: memberText k v (followingMembers rest)

/-- The text of members up to the closing brace. -/
def enclosedMembers : List (String × Json) → List Char
  | [] => ['\x7d']
  | (k, v) :: rest => memberText k v (followingMembers rest)

theorem toList_compact_arr (items : List Json) :
    (arr items).compact.toList = '[' :: enclosedItems items := by
  have hcons : ∀ (v : Json) (rest : List Json),
      (compactItems (v :: rest)).toList ++ [']'] = v.compact.toList ++ followingItems rest := by
    intro v rest
    induction rest generalizing v with
    | nil => rw [compactItems]; rfl
    | cons w rest ih =>
      rw [compactItems, String.toList_append, String.toList_append, List.append_assoc, ih, followingItems]
      simp
  rw [compact, String.toList_append, String.toList_append, List.append_assoc]
  cases items with
  | nil => rfl
  | cons v rest => exact congrArg (List.cons '[') (hcons v rest)

theorem toList_compact_obj (members : List (String × Json)) :
    (obj members).compact.toList = '\x7b' :: enclosedMembers members := by
  have hcons : ∀ (k : String) (v : Json) (rest : List (String × Json)),
      (compactMembers ((k, v) :: rest)).toList ++ ['\x7d'] = memberText k v (followingMembers rest) := by
    intro k v rest
    induction rest generalizing k v with
    | nil =>
      rw [compactMembers, String.toList_append, String.toList_append]
      simp [followingMembers, memberText]
    | cons m rest ih =>
      rw [compactMembers, String.toList_append, String.toList_append, String.toList_append,
        String.toList_append, List.append_assoc, ih, followingMembers]
      simp [memberText]
  rw [compact, String.toList_append, String.toList_append, List.append_assoc]
  cases members with
  | nil => rfl
  | cons m rest => exact congrArg (List.cons '\x7b') (hcons m.1 m.2 rest)

/-! ## Ends -/

/-- What follows cannot be part of a number. -/
def Delimited (cs : List Char) : Prop := ∀ c rest, cs = c :: rest → Double.isNumeral c = false

theorem delimited_cons {c : Char} (hc : Double.isNumeral c = false) (rest : List Char) :
    Delimited (c :: rest) := by
  intro d rest' heq
  cases heq
  exact hc

theorem delimited_followingItems (items : List Json) (rest : List Char) :
    Delimited (followingItems items ++ rest) := by
  cases items <;> exact delimited_cons rfl _

theorem delimited_followingMembers (members : List (String × Json)) (rest : List Char) :
    Delimited (followingMembers members ++ rest) := by
  cases members <;> exact delimited_cons rfl _

/-- Numbers can be told from what follows them. -/
theorem eq_of_render_append_eq {n m : Number} (hn : n.Normalised) (hm : m.Normalised)
    {rest rest' : List Char} (hrest : Delimited rest) (hrest' : Delimited rest')
    (h : n.render.toList ++ rest = m.render.toList ++ rest') : n = m ∧ rest = rest' := by
  have htake : ∀ {n : Number} {rest : List Char}, Delimited rest →
      (n.render.toList ++ rest).takeWhile Double.isNumeral = n.render.toList := by
    intro n rest hrest
    rw [List.takeWhile_append_of_pos fun c hc => Number.isNumeral_of_mem_render hc]
    cases rest with
    | nil => simp
    | cons c rest => simp [hrest c rest rfl]
  have htext : n.render.toList = m.render.toList := by
    rw [← htake hrest, h, htake hrest']
  rw [htext] at h
  exact ⟨Number.eq_of_render_eq hn hm (String.toList_injective htext), List.append_cancel_left h⟩

/-! ## Lists -/

theorem memberText_append (k : String) (v : Json) (cs ds : List Char) :
    memberText k v cs ++ ds = memberText k v (cs ++ ds) := by
  simp [memberText]

/-- A member can be told from what follows it, if its value can. -/
theorem eq_of_memberText_eq {k l : String} {v w : Json} {rest rest' : List Char}
    (hvalue : v.compact.toList ++ rest = w.compact.toList ++ rest' → v = w ∧ rest = rest')
    (h : memberText k v rest = memberText l w rest') : (k, v) = (l, w) ∧ rest = rest' := by
  obtain ⟨rfl, htail⟩ := eq_of_quote_append_eq h
  obtain ⟨rfl, hrest⟩ := hvalue (List.cons_injective htail)
  exact ⟨rfl, hrest⟩

theorem memberText_ne_cons {c : Char} (hc : c ≠ '"') (k : String) (v : Json) (rest cs : List Char) :
    memberText k v rest ≠ c :: cs := by
  intro h
  rw [memberText, toList_quote_append] at h
  exact hc (List.cons.inj h).1.symm

/-- Further items can be told from what follows them, if items can. -/
theorem eq_of_followingItems_append_eq {items others : List Json} {rest rest' : List Char}
    (hitems : enclosedItems items ++ rest = enclosedItems others ++ rest' → items = others ∧ rest = rest')
    (h : followingItems items ++ rest = followingItems others ++ rest') :
    items = others ∧ rest = rest' := by
  cases items <;> cases others
  · exact hitems h
  · cases (List.cons.inj h).1
  · cases (List.cons.inj h).1
  · exact hitems (List.cons_injective h)

/-- Further members can be told from what follows them, if members can. -/
theorem eq_of_followingMembers_append_eq {members others : List (String × Json)} {rest rest' : List Char}
    (hmembers : enclosedMembers members ++ rest = enclosedMembers others ++ rest' →
      members = others ∧ rest = rest')
    (h : followingMembers members ++ rest = followingMembers others ++ rest') :
    members = others ∧ rest = rest' := by
  cases members <;> cases others
  · exact hmembers h
  · cases (List.cons.inj h).1
  · cases (List.cons.inj h).1
  · exact hmembers (List.cons_injective h)

/-! ## Main results -/

mutual

/-- The text of a value can be told from what follows it. -/
theorem eq_of_compact_append_eq (v w : Json) {rest rest' : List Char} (hv : v.Normalised)
    (hw : w.Normalised) (hrest : Delimited rest) (hrest' : Delimited rest')
    (h : v.compact.toList ++ rest = w.compact.toList ++ rest') : v = w ∧ rest = rest' := by
  have hkind := kind_eq_of_compact_append_eq h
  cases v with
  | null =>
    cases w with
    | null => exact ⟨rfl, List.append_cancel_left h⟩
    | _ => cases hkind
  | bool b =>
    cases w with
    | bool c =>
      cases b <;> cases c
      · exact ⟨rfl, List.append_cancel_left h⟩
      · cases (List.cons.inj h).1
      · cases (List.cons.inj h).1
      · exact ⟨rfl, List.append_cancel_left h⟩
    | _ => cases hkind
  | num n =>
    cases w with
    | num m =>
      obtain ⟨rfl, heq⟩ := eq_of_render_append_eq hv hw hrest hrest' h
      exact ⟨rfl, heq⟩
    | _ => cases hkind
  | str text =>
    cases w with
    | str other =>
      obtain ⟨rfl, heq⟩ := eq_of_quote_append_eq h
      exact ⟨rfl, heq⟩
    | _ => cases hkind
  | arr items =>
    cases w with
    | arr others =>
      rw [toList_compact_arr, toList_compact_arr] at h
      obtain ⟨rfl, heq⟩ := eq_of_enclosedItems_append_eq items others hv hw (List.cons_injective h)
      exact ⟨rfl, heq⟩
    | _ => cases hkind
  | obj members =>
    cases w with
    | obj others =>
      rw [toList_compact_obj, toList_compact_obj] at h
      obtain ⟨rfl, heq⟩ := eq_of_enclosedMembers_append_eq members others hv hw (List.cons_injective h)
      exact ⟨rfl, heq⟩
    | _ => cases hkind

/-- The text of items can be told from what follows the closing bracket. -/
theorem eq_of_enclosedItems_append_eq (items others : List Json) {rest rest' : List Char}
    (hitems : ItemsNormalised items) (hothers : ItemsNormalised others)
    (h : enclosedItems items ++ rest = enclosedItems others ++ rest') :
    items = others ∧ rest = rest' := by
  cases items with
  | nil =>
    cases others with
    | nil => exact ⟨rfl, List.cons_injective h⟩
    | cons w others =>
      rw [enclosedItems, enclosedItems, List.append_assoc] at h
      exact absurd h.symm (compact_append_ne_cons rfl _ _)
  | cons v items =>
    cases others with
    | nil =>
      rw [enclosedItems, enclosedItems, List.append_assoc] at h
      exact absurd h (compact_append_ne_cons rfl _ _)
    | cons w others =>
      rw [enclosedItems, enclosedItems, List.append_assoc, List.append_assoc] at h
      obtain ⟨rfl, htail⟩ := eq_of_compact_append_eq v w hitems.1 hothers.1
        (delimited_followingItems _ _) (delimited_followingItems _ _) h
      obtain ⟨rfl, hrest⟩ := eq_of_followingItems_append_eq
        (eq_of_enclosedItems_append_eq items others hitems.2 hothers.2) htail
      exact ⟨rfl, hrest⟩

/-- The text of members can be told from what follows the closing brace. -/
theorem eq_of_enclosedMembers_append_eq (members others : List (String × Json)) {rest rest' : List Char}
    (hmembers : MembersNormalised members) (hothers : MembersNormalised others)
    (h : enclosedMembers members ++ rest = enclosedMembers others ++ rest') :
    members = others ∧ rest = rest' := by
  cases members with
  | nil =>
    cases others with
    | nil => exact ⟨rfl, List.cons_injective h⟩
    | cons m others =>
      rw [enclosedMembers, enclosedMembers, memberText_append] at h
      exact absurd h.symm (memberText_ne_cons (by decide) _ _ _ _)
  | cons m members =>
    obtain ⟨k, v⟩ := m
    cases others with
    | nil =>
      rw [enclosedMembers, enclosedMembers, memberText_append] at h
      exact absurd h (memberText_ne_cons (by decide) _ _ _ _)
    | cons m others =>
      obtain ⟨l, w⟩ := m
      rw [enclosedMembers, enclosedMembers, memberText_append, memberText_append] at h
      obtain ⟨hmember, htail⟩ := eq_of_memberText_eq (eq_of_compact_append_eq v w hmembers.1 hothers.1
        (delimited_followingMembers _ _) (delimited_followingMembers _ _)) h
      obtain ⟨rfl, hrest⟩ := eq_of_followingMembers_append_eq
        (eq_of_enclosedMembers_append_eq members others hmembers.2 hothers.2) htail
      exact ⟨congrArg (· :: members) hmember, hrest⟩

end

end Json

end ShapeGraph
