import Mathlib.Data.List.TakeWhile
import ShapeGraph.Json.Number
import ShapeGraph.Proofs.ShortestDigits

/-!
# Texts of numbers

The text of a number is read back by hand: a sign, digits with a point among them, and perhaps an exponent.
What it says is what the shortest digits stand for, so different numbers have different texts.

## Main definitions

* `readPlain`, `readScientific` — the number that a text without sign says.
* `Double.IsPointed` — a text has a point among digits.
* `Number.Normalised` — a fractional number is a normalised double precision one.

## Main results

* `Double.isPointed_placePoint` — the point may stand before, among or behind the digits.
* `Double.spells_unsigned` — a text says what the shortest digits stand for.
* `Number.eq_of_render_eq` — different numbers have different texts.
-/

set_option autoImplicit false

namespace ShapeGraph

/-! ## Reading -/

/-- The number that digits say, perhaps with a point among them. -/
def readPlain (cs : List Char) : ℚ :=
  let fraction := (cs.dropWhile (· ≠ '.')).tail
  Nat.ofDigitChars 10 (cs.takeWhile (· ≠ '.') ++ fraction) 0 / 10 ^ fraction.length

/-- The number that digits after a sign say. -/
def readPower : List Char → ℤ
  | '-' :: cs => -(Nat.ofDigitChars 10 cs 0 : ℤ)
  | cs => Nat.ofDigitChars 10 cs.tail 0

/-- The number that digits say, perhaps with a point among them, and with an exponent. -/
def readScientific (cs : List Char) : ℚ :=
  readPlain (cs.takeWhile (· ≠ 'e')) * 10 ^ readPower (cs.dropWhile (· ≠ 'e')).tail

/-- All characters are decimal digits. -/
def AllDigits (cs : List Char) : Prop := ∀ c ∈ cs, c.isDigit = true

theorem AllDigits.append {cs ds : List Char} (hcs : AllDigits cs) (hds : AllDigits ds) :
    AllDigits (cs ++ ds) := fun c hc => (List.mem_append.1 hc).elim (hcs c) (hds c)

theorem AllDigits.toDigits (n : ℕ) : AllDigits (Nat.toDigits 10 n) := fun _ hc =>
  Nat.isDigit_of_mem_toDigits (by norm_num) (by norm_num) hc

theorem AllDigits.replicate_zero (n : ℕ) : AllDigits (List.replicate n '0') := by
  intro c hc
  rw [List.eq_of_mem_replicate hc]
  rfl

/-- Who looks for a mark that is no digit passes over the digits. -/
theorem AllDigits.takeWhile_append {cs : List Char} (hcs : AllDigits cs) {mark : Char}
    (hmark : mark.isDigit = false) (rest : List Char) :
    (cs ++ rest).takeWhile (· ≠ mark) = cs ++ rest.takeWhile (· ≠ mark) ∧
      (cs ++ rest).dropWhile (· ≠ mark) = rest.dropWhile (· ≠ mark) := by
  have hne : ∀ c ∈ cs, decide (c ≠ mark) = true := by
    intro c hc
    refine decide_eq_true fun heq => ?_
    rw [← heq, hcs c hc] at hmark
    cases hmark
  exact ⟨List.takeWhile_append_of_pos hne, List.dropWhile_append_of_pos hne⟩

theorem readPlain_append {whole fraction : List Char} (hwhole : AllDigits whole) :
    readPlain (whole ++ '.' :: fraction) =
      Nat.ofDigitChars 10 (whole ++ fraction) 0 / 10 ^ fraction.length := by
  obtain ⟨htake, hdrop⟩ := hwhole.takeWhile_append (show '.'.isDigit = false from rfl) ('.' :: fraction)
  unfold readPlain
  rw [htake, hdrop]
  simp

theorem readPlain_of_allDigits {cs : List Char} (hcs : AllDigits cs) :
    readPlain cs = Nat.ofDigitChars 10 cs 0 := by
  obtain ⟨htake, hdrop⟩ := hcs.takeWhile_append (show '.'.isDigit = false from rfl) []
  rw [List.append_nil] at htake hdrop
  unfold readPlain
  rw [htake, hdrop]
  simp

namespace Double

/-! ## Placing the point -/

theorem toList_zeros (n : ℤ) : (zeros n).toList = List.replicate n.toNat '0' := String.toList_ofList

/-- The text has a point among digits, which together say the number. -/
def IsPointed (text : List Char) (v : ℚ) : Prop :=
  ∃ before after, AllDigits before ∧ before ≠ [] ∧ AllDigits after ∧ text = before ++ '.' :: after ∧
    (Nat.ofDigitChars 10 (before ++ after) 0 : ℚ) / 10 ^ after.length = v

section Digits

variable {ds : List Char} {k : ℕ} (hds : AllDigits ds)

include hds

/-- The point behind the digits and some zeros. -/
theorem isPointed_behind (hne : ds ≠ []) (k : ℕ) :
    IsPointed (ds ++ List.replicate k '0' ++ ['.', '0']) (Nat.ofDigitChars 10 ds 0 * 10 ^ k) := by
  refine ⟨ds ++ List.replicate k '0', ['0'], hds.append (.replicate_zero k), by simp [hne],
    .replicate_zero 1, rfl, ?_⟩
  rw [show ['0'] = List.replicate 1 '0' from rfl, Nat.ofDigitChars_append, Nat.ofDigitChars_append,
    Nat.ofDigitChars_replicate_zero, Nat.ofDigitChars_replicate_zero]
  push_cast
  simp
  ring

/-- The point among the digits. -/
theorem isPointed_among (hpos : 0 < k) (hk : k < ds.length) :
    IsPointed (ds.take k ++ '.' :: ds.drop k) (Nat.ofDigitChars 10 ds 0 / 10 ^ (ds.length - k)) := by
  refine ⟨ds.take k, ds.drop k, fun d hd => hds d (List.mem_of_mem_take hd), ?_,
    fun d hd => hds d (List.mem_of_mem_drop hd), rfl, ?_⟩
  · rw [← List.length_pos_iff, List.length_take]
    omega
  · rw [List.take_append_drop, List.length_drop]

/-- The point before some zeros and the digits. -/
theorem isPointed_before (k : ℕ) : IsPointed ('0' :: '.' :: (List.replicate k '0' ++ ds))
    (Nat.ofDigitChars 10 ds 0 / 10 ^ (k + ds.length)) := by
  refine ⟨['0'], List.replicate k '0' ++ ds, .replicate_zero 1, by simp,
    (AllDigits.replicate_zero k).append hds, rfl, ?_⟩
  rw [show ['0'] = List.replicate 1 '0' from rfl, Nat.ofDigitChars_append, Nat.ofDigitChars_append,
    Nat.ofDigitChars_replicate_zero, Nat.ofDigitChars_replicate_zero, Nat.mul_zero, List.length_append,
    List.length_replicate]

end Digits

/-- Wherever the point is placed, the digits say the number at the right place. -/
theorem isPointed_placePoint (c : ℕ) (point : ℤ) (whole : String)
    (hwhole : ((toString c).length : ℤ) ≤ point → whole = ".0") :
    IsPointed (placePoint (toString c) point whole).toList (c * 10 ^ (point - (toString c).length)) := by
  have hdigits : (toString c).toList = Nat.toDigits 10 c := Nat.toList_repr
  have hlength : (toString c).length = (Nat.toDigits 10 c).length := by
    rw [← String.length_toList, hdigits]
  have hall := AllDigits.toDigits c
  have hvalue : Nat.ofDigitChars 10 (Nat.toDigits 10 c) 0 = c := Nat.ofDigitChars_ten_toDigits
  rw [hlength] at hwhole ⊢
  unfold placePoint
  rw [hlength]
  dsimp only
  by_cases hbehind : ((Nat.toDigits 10 c).length : ℤ) ≤ point
  · obtain ⟨k, hk⟩ := Int.eq_ofNat_of_zero_le (sub_nonneg.2 hbehind)
    have hpointed := isPointed_behind hall Nat.toDigits_ne_nil k
    rw [hvalue] at hpointed
    rw [if_pos hbehind, hwhole hbehind, String.toList_append, String.toList_append, toList_zeros, hdigits, hk,
      zpow_natCast]
    exact hpointed
  rw [if_neg hbehind]
  by_cases hamong : 0 < point
  · obtain ⟨k, rfl⟩ := Int.eq_ofNat_of_zero_le hamong.le
    have hk : k < (Nat.toDigits 10 c).length := by omega
    have hpointed := isPointed_among hall (by omega) hk
    rw [hvalue, div_eq_mul_inv, ← zpow_natCast, ← zpow_neg, Nat.cast_sub hk.le, neg_sub] at hpointed
    rw [if_pos hamong]
    simpa [String.toList_append, hdigits] using hpointed
  · obtain ⟨k, hk⟩ := Int.eq_ofNat_of_zero_le (neg_nonneg.2 (not_lt.1 hamong))
    have hpointed := isPointed_before hall k
    have hplace : -((k + (Nat.toDigits 10 c).length : ℕ) : ℤ) = point - (Nat.toDigits 10 c).length := by
      push_cast
      omega
    rw [hvalue, div_eq_mul_inv, ← zpow_natCast, ← zpow_neg, hplace] at hpointed
    rw [if_neg hamong, String.toList_append, String.toList_append, toList_zeros, hdigits, hk, List.append_assoc]
    exact hpointed

/-! ## Texts without sign -/

/-- The text says a number without sign and exponent. -/
structure IsPlain (cs : List Char) (v : ℚ) : Prop where
  exists_cons : ∃ d rest, cs = d :: rest ∧ d.isDigit = true
  digit_or_point : ∀ c ∈ cs, c.isDigit = true ∨ c = '.'
  readPlain_eq : readPlain cs = v

theorem exists_cons_of_allDigits {cs : List Char} (hcs : AllDigits cs) (hne : cs ≠ []) (rest : List Char) :
    ∃ d tail, cs ++ rest = d :: tail ∧ d.isDigit = true := by
  obtain ⟨d, tail, rfl⟩ := List.exists_cons_of_ne_nil hne
  exact ⟨d, tail ++ rest, rfl, hcs d List.mem_cons_self⟩

theorem isPlain_toDigits (c : ℕ) : IsPlain (Nat.toDigits 10 c) c where
  exists_cons := by
    simpa using exists_cons_of_allDigits (.toDigits c) Nat.toDigits_ne_nil []
  digit_or_point d hd := Or.inl (AllDigits.toDigits c d hd)
  readPlain_eq := by rw [readPlain_of_allDigits (.toDigits c), Nat.ofDigitChars_ten_toDigits]

/-- A text with a point among digits is read as what the digits say. -/
theorem IsPointed.isPlain {text : List Char} {v : ℚ} (h : IsPointed text v) :
    IsPlain text v ∧ '.' ∈ text := by
  obtain ⟨before, after, hbefore, hne, hafter, rfl, hvalue⟩ := h
  refine ⟨⟨exists_cons_of_allDigits hbefore hne _, fun d hd => ?_, ?_⟩, by simp⟩
  · rcases List.mem_append.1 hd with hd | hd
    · exact Or.inl (hbefore d hd)
    · rcases List.mem_cons.1 hd with rfl | hd
      · exact Or.inr rfl
      · exact Or.inl (hafter d hd)
  · rw [readPlain_append hbefore, hvalue]

/-- An exponent is read from behind its mark, and there is none without the mark. -/
theorem IsPlain.readScientific_eq {cs : List Char} {v : ℚ} (h : IsPlain cs v) :
    readScientific cs = v ∧
      ∀ power, readScientific (cs ++ 'e' :: power) = v * 10 ^ readPower power := by
  have hne : ∀ c ∈ cs, decide (c ≠ 'e') = true := by
    intro c hc
    refine decide_eq_true fun heq => ?_
    rcases h.digit_or_point c hc with hdigit | hpoint
    · rw [heq] at hdigit
      cases hdigit
    · rw [hpoint] at heq
      cases heq
  refine ⟨?_, fun power => ?_⟩
  · unfold readScientific
    rw [List.takeWhile_eq_self_iff.2 hne, List.dropWhile_eq_nil_iff.2 hne]
    simp [h.readPlain_eq, readPower]
  · unfold readScientific
    rw [List.takeWhile_append_of_pos hne, List.dropWhile_append_of_pos hne]
    simp [h.readPlain_eq]

/-- A character of the text of a number. -/
def isNumeral (c : Char) : Bool := c.isDigit || c == '.' || c == 'e' || c == '+' || c == '-'

/-- The text says a number without sign, by a point or an exponent. -/
structure Spells (cs : List Char) (v : ℚ) : Prop where
  exists_cons : ∃ d rest, cs = d :: rest ∧ d.isDigit = true
  isNumeral_of_mem : ∀ c ∈ cs, isNumeral c = true
  point_or_exponent : '.' ∈ cs ∨ 'e' ∈ cs
  readScientific_eq : readScientific cs = v

theorem IsPlain.isNumeral_of_mem {cs : List Char} {v : ℚ} (h : IsPlain cs v) :
    ∀ c ∈ cs, isNumeral c = true := by
  intro c hc
  rcases h.digit_or_point c hc with hdigit | rfl
  · simp [isNumeral, hdigit]
  · rfl

/-- The text of a number without its sign, given the shortest digits. -/
def unsigned (c : ℕ) (e : ℤ) : String :=
  let digits := toString c
  let point : ℤ := digits.length + e
  if c = 0 then "0.0"
  else if -5 < point ∧ point ≤ 16 then placePoint digits point ".0"
  else
    let power := point - 1
    let head := if digits.length = 1 then digits else placePoint digits 1 ""
    head ++ "e" ++ (if power < 0 then "-" else "+") ++ toString power.natAbs

theorem toScientific_eq (x : Double) : x.toScientific = x.sign ++
    unsigned (Magnitude.shortest .even x.magnitude).1 (Magnitude.shortest .even x.magnitude).2 := by
  unfold toScientific unsigned
  cases Magnitude.shortest .even x.magnitude
  rfl

/-- An exponent is read with its sign. -/
theorem readPower_sign (power : ℤ) :
    readPower ((if power < 0 then "-" else "+").toList ++ Nat.toDigits 10 power.natAbs) = power := by
  split
  · show -(Nat.ofDigitChars 10 (Nat.toDigits 10 power.natAbs) 0 : ℤ) = power
    rw [Nat.ofDigitChars_ten_toDigits]
    omega
  · show (Nat.ofDigitChars 10 (Nat.toDigits 10 power.natAbs) 0 : ℤ) = power
    rw [Nat.ofDigitChars_ten_toDigits]
    omega

theorem IsPlain.spells {cs : List Char} {v : ℚ} (h : IsPlain cs v) (hpoint : '.' ∈ cs) : Spells cs v :=
  ⟨h.exists_cons, h.isNumeral_of_mem, Or.inl hpoint, h.readScientific_eq.1⟩

theorem IsPlain.spells_power {cs : List Char} {v : ℚ} (h : IsPlain cs v) (power : ℤ) :
    Spells (cs ++ 'e' :: ((if power < 0 then "-" else "+").toList ++ Nat.toDigits 10 power.natAbs))
      (v * 10 ^ power) where
  exists_cons := by
    obtain ⟨d, rest, rfl, hd⟩ := h.exists_cons
    exact ⟨d, _, rfl, hd⟩
  isNumeral_of_mem d hd := by
    rcases List.mem_append.1 hd with hd | hd
    · exact h.isNumeral_of_mem d hd
    · rcases List.mem_cons.1 hd with rfl | hd
      · rfl
      · rcases List.mem_append.1 hd with hd | hd
        · split at hd <;> (obtain rfl := List.mem_singleton.1 hd; rfl)
        · simp [isNumeral, AllDigits.toDigits _ d hd]
  point_or_exponent := Or.inr (by simp)
  readScientific_eq := by rw [h.readScientific_eq.2, readPower_sign]

/-- Whatever the layout, the text says the number. -/
theorem spells_unsigned (c : ℕ) (e : ℤ) : Spells (unsigned c e).toList (c * 10 ^ e) := by
  have hdigits : (toString c).toList = Nat.toDigits 10 c := Nat.toList_repr
  unfold unsigned
  dsimp only
  by_cases hzero : c = 0
  · rw [if_pos hzero, hzero]
    obtain ⟨hplain, hpoint⟩ := (isPointed_placePoint 0 1 ".0" fun _ => rfl).isPlain
    rw [Nat.cast_zero, zero_mul] at hplain ⊢
    exact hplain.spells hpoint
  · rw [if_neg hzero]
    split
    · obtain ⟨hplain, hpoint⟩ := (isPointed_placePoint c ((toString c).length + e) ".0" fun _ => rfl).isPlain
      rw [add_sub_cancel_left] at hplain
      exact hplain.spells hpoint
    · have hhead : IsPlain (if (toString c).length = 1 then toString c
          else placePoint (toString c) 1 "").toList (c * 10 ^ (1 - (toString c).length : ℤ)) := by
        split
        · next hone =>
          rw [hone, hdigits]
          simpa using isPlain_toDigits c
        · next hmore =>
          have hpos : 0 < (toString c).length := by
            rw [← String.length_toList, hdigits]
            exact Nat.length_toDigits_pos
          exact (isPointed_placePoint c 1 "" fun hle => by omega).isPlain.1
      have htext := hhead.spells_power ((toString c).length + e - 1)
      have hplace : (1 - (toString c).length + ((toString c).length + e - 1) : ℤ) = e := by omega
      rw [mul_assoc, ← zpow_add₀ (by norm_num), hplace] at htext
      rw [String.toList_append, String.toList_append, String.toList_append, List.append_assoc,
        List.append_assoc, show (toString ((toString c).length + e - 1 : ℤ).natAbs).toList =
          Nat.toDigits 10 ((toString c).length + e - 1 : ℤ).natAbs from Nat.toList_repr]
      exact htext

/-! ## Texts of doubles -/

/-- The text of a double is read as what its shortest digits stand for, after its sign. -/
theorem exists_toList_toScientific (x : Double) : ∃ cs,
    x.toScientific.toList = x.sign.toList ++ cs ∧ Spells cs (Magnitude.digitsValue .even x.magnitude) :=
  ⟨_, by rw [toScientific_eq, String.toList_append], spells_unsigned _ _⟩

/-- A sign and what follows it can be told apart. -/
theorem eq_of_sign_append_eq {x y : Double} {cs ds : List Char} {v w : ℚ} (hcs : Spells cs v)
    (hds : Spells ds w) (h : x.sign.toList ++ cs = y.sign.toList ++ ds) :
    x.negative = y.negative ∧ cs = ds := by
  have hminus : ∀ {cs ds : List Char} {v : ℚ}, Spells cs v → cs ≠ '-' :: ds := by
    rintro cs ds v hcs rfl
    obtain ⟨d, rest, heq, hd⟩ := hcs.exists_cons
    cases heq
    cases hd
  unfold sign at h
  cases hx : x.negative <;> cases hy : y.negative <;> rw [hx, hy] at h
  · exact ⟨rfl, h⟩
  · exact absurd h (hminus hcs)
  · exact absurd h.symm (hminus hds)
  · exact ⟨rfl, List.cons_injective h⟩

/-- Different doubles have different texts. -/
theorem eq_of_toScientific_eq {x y : Double} (hx : x.magnitude.Normalised) (hy : y.magnitude.Normalised)
    (h : x.toScientific = y.toScientific) : x = y := by
  obtain ⟨cs, hcs, hspells⟩ := x.exists_toList_toScientific
  obtain ⟨ds, hds, hspells'⟩ := y.exists_toList_toScientific
  obtain ⟨hnegative, rfl⟩ := eq_of_sign_append_eq hspells hspells' (by rw [← hcs, ← hds, h])
  have hmagnitude := Magnitude.eq_of_digitsValue_eq hx hy
    (hspells.readScientific_eq.symm.trans hspells'.readScientific_eq)
  cases x
  cases y
  simp_all

end Double

/-! ## Texts of numbers -/

namespace Number

/-- A fractional number is a normalised double precision one. -/
def Normalised : Number → Prop
  | .int _ => True
  | .float x => x.magnitude.Normalised

/-- The text of an integer is one of digits, after a minus sign if it is negative. -/
theorem exists_toList_toString (i : ℤ) : ∃ cs, AllDigits cs ∧ cs ≠ [] ∧
    Nat.ofDigitChars 10 cs 0 = i.natAbs ∧
      (0 ≤ i ∧ (toString i).toList = cs ∨ i < 0 ∧ (toString i).toList = '-' :: cs) := by
  refine ⟨_, .toDigits i.natAbs, Nat.toDigits_ne_nil, Nat.ofDigitChars_ten_toDigits, ?_⟩
  cases i with
  | ofNat n => exact Or.inl ⟨Int.natCast_nonneg n, Nat.toList_repr⟩
  | negSucc n =>
    refine Or.inr ⟨Int.negSucc_lt_zero n, ?_⟩
    show ("-" ++ Nat.repr (n + 1)).toList = _
    rw [String.toList_append, Nat.toList_repr]
    rfl

/-- Different integers have different texts. -/
theorem eq_of_toString_eq {i j : ℤ} (h : toString i = toString j) : i = j := by
  have hminus : ∀ {cs ds : List Char}, AllDigits cs → cs ≠ '-' :: ds := by
    rintro cs ds hcs rfl
    exact absurd (hcs '-' List.mem_cons_self) (by decide)
  obtain ⟨cs, hcs, -, hvalue, htext⟩ := exists_toList_toString i
  obtain ⟨ds, hds, -, hvalue', htext'⟩ := exists_toList_toString j
  rw [← h] at htext'
  have hsame : cs = ds → i.natAbs = j.natAbs := by
    rintro rfl
    exact hvalue.symm.trans hvalue'
  rcases htext with ⟨hi, htext⟩ | ⟨hi, htext⟩ <;> rcases htext' with ⟨hj, htext'⟩ | ⟨hj, htext'⟩
  · have := hsame (htext.symm.trans htext')
    omega
  · exact absurd (htext.symm.trans htext') (hminus hcs)
  · exact absurd (htext'.symm.trans htext) (hminus hds)
  · have := hsame (List.cons_injective (htext.symm.trans htext'))
    omega

/-- The text of a number begins with a digit or a minus sign. -/
theorem exists_toList_render (n : Number) : ∃ c rest, n.render.toList = c :: rest ∧
    (c.isDigit = true ∨ c = '-') := by
  cases n with
  | int i =>
    obtain ⟨cs, hcs, hne, -, htext⟩ := exists_toList_toString i
    obtain ⟨d, rest, rfl⟩ := List.exists_cons_of_ne_nil hne
    rcases htext with ⟨-, htext⟩ | ⟨-, htext⟩
    · exact ⟨d, rest, htext, Or.inl (hcs d List.mem_cons_self)⟩
    · exact ⟨'-', d :: rest, htext, Or.inr rfl⟩
  | float x =>
    obtain ⟨cs, htext, hspells⟩ := x.exists_toList_toScientific
    obtain ⟨d, rest, rfl, hd⟩ := hspells.exists_cons
    unfold Double.sign at htext
    split at htext
    · exact ⟨'-', d :: rest, htext, Or.inr rfl⟩
    · exact ⟨d, rest, htext, Or.inl hd⟩

/-- The text of a number has numeral characters only. -/
theorem isNumeral_of_mem_render {n : Number} {c : Char} (hc : c ∈ n.render.toList) :
    Double.isNumeral c = true := by
  cases n with
  | int i =>
    obtain ⟨cs, hcs, -, -, htext⟩ := exists_toList_toString i
    have hmem : c = '-' ∨ c ∈ cs := by
      rcases htext with ⟨-, htext⟩ | ⟨-, htext⟩
      · exact Or.inr (htext ▸ hc)
      · exact List.mem_cons.1 (htext ▸ hc)
    rcases hmem with rfl | hmem
    · rfl
    · simp [Double.isNumeral, hcs c hmem]
  | float x =>
    obtain ⟨cs, htext, hspells⟩ := x.exists_toList_toScientific
    change c ∈ x.toScientific.toList at hc
    rw [htext] at hc
    rcases List.mem_append.1 hc with hc | hc
    · unfold Double.sign at hc
      split at hc
      · obtain rfl := List.mem_singleton.1 hc
        rfl
      · cases hc
    · exact hspells.isNumeral_of_mem c hc

/-- A point or an exponent tells a fractional number from an integer. -/
theorem toString_ne_toScientific (i : ℤ) (x : Double) : toString i ≠ x.toScientific := by
  intro h
  obtain ⟨cs, hcs, -, -, htext⟩ := exists_toList_toString i
  obtain ⟨ds, hds, hspells⟩ := x.exists_toList_toScientific
  have hmem : ∀ c ∈ ds, c = '-' ∨ c.isDigit = true := by
    intro c hc
    have hin : c ∈ (toString i).toList := by
      rw [h, hds]
      exact List.mem_append_right _ hc
    rcases htext with ⟨-, htext⟩ | ⟨-, htext⟩
    · exact Or.inr (hcs c (htext ▸ hin))
    · exact (List.mem_cons.1 (htext ▸ hin)).imp_right (hcs c)
  rcases hspells.point_or_exponent with hpoint | hexponent
  · exact absurd (hmem _ hpoint) (by decide)
  · exact absurd (hmem _ hexponent) (by decide)

/-- Different numbers have different texts. -/
theorem eq_of_render_eq {n m : Number} (hn : n.Normalised) (hm : m.Normalised)
    (h : n.render = m.render) : n = m := by
  cases n with
  | int i =>
    cases m with
    | int j => exact congrArg Number.int (eq_of_toString_eq h)
    | float y => exact absurd h (toString_ne_toScientific i y)
  | float x =>
    cases m with
    | int j => exact absurd h.symm (toString_ne_toScientific j x)
    | float y => exact congrArg Number.float (Double.eq_of_toScientific_eq hn hm h)

end Number

end ShapeGraph
