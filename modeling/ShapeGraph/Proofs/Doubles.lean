import Mathlib.Algebra.Order.Field.Power
import Mathlib.Data.Rat.Cast.Order
import Mathlib.Tactic.FieldSimp
import Mathlib.Tactic.Linarith
import Mathlib.Tactic.NormNum
import Mathlib.Tactic.Positivity
import Mathlib.Tactic.Ring
import ShapeGraph.Decimal.Shortest

/-!
# Double precision numbers as rational ones

A magnitude stands for a rational number, and all numbers near it are rounded to it.  Which decimals these
are is found out by comparing natural numbers.  No rational number is rounded to two normalised magnitudes.

## Main definitions

* `Magnitude.Normalised` — the bounds of significand and exponent.
* `Magnitude.lower`, `Magnitude.upper` — the ends of the interval that is rounded to a magnitude.
* `Magnitude.Attracts` — a rational number is rounded to a magnitude.

## Main results

* `Magnitude.roundsTo_iff` — the comparison of decimals with the interval is exact.
* `Magnitude.Attracts.unique` — intervals of different magnitudes have nothing in common.
* `Magnitude.normalised_of_round` — what quotients are rounded to is normalised.
-/

set_option autoImplicit false

namespace ShapeGraph

namespace Magnitude

variable {x y : Magnitude} {v : ℚ}

/-! ## Normalised magnitudes -/

/-- The significand has 53 binary digits, or fewer when the exponent is the least one. -/
structure Normalised (x : Magnitude) : Prop where
  significand_lt : x.significand < 2 ^ 53
  le_exponent : minExponent ≤ x.exponent
  exponent_le : x.exponent ≤ maxExponent
  le_significand : minExponent < x.exponent → 2 ^ 52 ≤ x.significand

theorem Normalised.zero : zero.Normalised := ⟨by decide, by decide, by decide, by decide⟩

/-- The number that a magnitude stands for. -/
def value (x : Magnitude) : ℚ := x.significand * 2 ^ x.exponent

/-- The least number that may be rounded to `x`. -/
def lower (x : Magnitude) : ℚ := x.rounding.1 * 2 ^ (x.exponent - 2)

/-- The greatest number that may be rounded to `x`. -/
def upper (x : Magnitude) : ℚ := x.rounding.2 * 2 ^ (x.exponent - 2)

/-- The number is rounded to `x`: it is between the ends, or it is one of them and the significand is
even. -/
structure Attracts (x : Magnitude) (v : ℚ) : Prop where
  lower_le : x.lower ≤ v
  le_upper : v ≤ x.upper
  even_of_lower : v = x.lower → x.significand % 2 = 0
  even_of_upper : v = x.upper → x.significand % 2 = 0

/-! ## Comparing decimals -/

/-- Powers with an exponent of either sign, over a denominator. -/
theorem zpow_eq_div {b : ℚ} (hb : b ≠ 0) (e : ℤ) : b ^ e = b ^ e.toNat / b ^ (-e).toNat := by
  rw [eq_div_iff (pow_ne_zero _ hb), ← zpow_natCast, ← zpow_natCast, ← zpow_add₀ hb]
  congr 1
  omega

/-- The comparison of decimals with binary numbers is exact. -/
theorem compareDecimal_eq (c : ℕ) (e : ℤ) (m : ℕ) (q : ℤ) :
    compareDecimal c e m q = cmp ((c : ℚ) * 10 ^ e) (m * 2 ^ q) := by
  have hpos : (0 : ℚ) < 10 ^ (-e).toNat * 2 ^ (-q).toNat := by positivity
  have hleft : (c : ℚ) * 10 ^ e * (10 ^ (-e).toNat * 2 ^ (-q).toNat) =
      ((c * Nat.pow 10 e.toNat) <<< (-q).toNat : ℕ) := by
    rw [zpow_eq_div (by norm_num) e, Nat.shiftLeft_eq]
    push_cast [Nat.pow_eq]
    field_simp
  have hright : (m : ℚ) * 2 ^ q * (10 ^ (-e).toNat * 2 ^ (-q).toNat) =
      ((m * Nat.pow 10 (-e).toNat) <<< q.toNat : ℕ) := by
    rw [zpow_eq_div (by norm_num) q, Nat.shiftLeft_eq]
    push_cast [Nat.pow_eq]
    field_simp
  rw [← cmp_mul_pos_right hpos, hleft, hright, Nat.strictMono_cast.cmp_map_eq, cmp_eq_compare]
  rfl

theorem compareDecimal_ne_gt_iff {c : ℕ} {e : ℤ} {m : ℕ} {q : ℤ} :
    compareDecimal c e m q ≠ .gt ↔ (c : ℚ) * 10 ^ e ≤ m * 2 ^ q := by
  rw [compareDecimal_eq, Ne, cmp_eq_gt_iff, not_lt]

theorem compareDecimal_ne_lt_iff {c : ℕ} {e : ℤ} {m : ℕ} {q : ℤ} :
    compareDecimal c e m q ≠ .lt ↔ (m : ℚ) * 2 ^ q ≤ c * 10 ^ e := by
  rw [compareDecimal_eq, Ne, cmp_eq_lt_iff, not_lt]

/-- The comparison of a decimal with the interval of a magnitude is exact. -/
theorem roundsTo_iff {c : ℕ} {e : ℤ} : x.roundsTo c e = true ↔ x.Attracts (c * 10 ^ e) := by
  have hlow_ne : compareDecimal c e x.rounding.1 (x.exponent - 2) ≠ .lt ↔ x.lower ≤ c * 10 ^ e :=
    compareDecimal_ne_lt_iff
  have hhigh_ne : compareDecimal c e x.rounding.2 (x.exponent - 2) ≠ .gt ↔ c * 10 ^ e ≤ x.upper :=
    compareDecimal_ne_gt_iff
  have hlow : compareDecimal c e x.rounding.1 (x.exponent - 2) = .gt ↔ x.lower < c * 10 ^ e := by
    rw [compareDecimal_eq]
    exact cmp_eq_gt_iff _ _
  have hhigh : compareDecimal c e x.rounding.2 (x.exponent - 2) = .lt ↔ c * 10 ^ e < x.upper := by
    rw [compareDecimal_eq]
    exact cmp_eq_lt_iff _ _
  unfold roundsTo
  generalize (c : ℚ) * 10 ^ e = v at *
  dsimp only
  by_cases heven : x.significand % 2 = 0
  · rw [if_pos heven, Bool.and_eq_true, bne_iff_ne, bne_iff_ne, hlow_ne, hhigh_ne]
    exact ⟨fun ⟨hl, hu⟩ => ⟨hl, hu, fun _ => heven, fun _ => heven⟩, fun h => ⟨h.1, h.2⟩⟩
  · rw [if_neg heven, Bool.and_eq_true, beq_iff_eq, beq_iff_eq, hlow, hhigh]
    constructor
    · exact fun ⟨hl, hu⟩ => ⟨hl.le, hu.le, fun h => absurd h hl.ne', fun h => absurd h hu.ne⟩
    · exact fun h => ⟨lt_of_le_of_ne h.lower_le fun heq => heven (h.even_of_lower heq.symm),
        lt_of_le_of_ne h.le_upper fun heq => heven (h.even_of_upper heq)⟩

/-! ## Intervals are disjoint -/

/-- The magnitude has the smaller exponent, or the same exponent and the smaller significand. -/
def Before (x y : Magnitude) : Prop :=
  x.exponent < y.exponent ∨ x.exponent = y.exponent ∧ x.significand < y.significand

theorem before_or_before (h : x ≠ y) : x.Before y ∨ y.Before x := by
  rcases lt_trichotomy x.exponent y.exponent with hlt | heq | hgt
  · exact Or.inl (Or.inl hlt)
  · rcases lt_trichotomy x.significand y.significand with hlt | hsame | hgt
    · exact Or.inl (Or.inr ⟨heq, hlt⟩)
    · exact absurd (by cases x; cases y; simp_all) h
    · exact Or.inr (Or.inr ⟨heq.symm, hgt⟩)
  · exact Or.inr (Or.inl hgt)

/-- At the scale of the one that comes before, its interval ends where the other begins, or earlier.  If it
ends there, one of the significands is odd. -/
theorem rounding_le (hx : x.Normalised) (hy : y.Normalised) (h : x.Before y) :
    let k := (y.exponent - x.exponent).toNat
    x.rounding.2 ≤ y.rounding.1 * 2 ^ k ∧
      (x.rounding.2 = y.rounding.1 * 2 ^ k → x.significand % 2 = 1 ∨ y.significand % 2 = 1) := by
  intro k
  have hlow : y.rounding.1 = 4 * y.significand - 1 ∧ y.significand = 2 ^ 52 ∧ minExponent < y.exponent ∨
      y.rounding.1 = 4 * y.significand - 2 ∧ ¬ (y.significand = 2 ^ 52 ∧ minExponent < y.exponent) := by
    unfold rounding
    rw [Nat.one_shiftLeft]
    split
    · next hpower => exact Or.inl ⟨rfl, hpower⟩
    · next hother => exact Or.inr ⟨rfl, hother⟩
  have hhigh : x.rounding.2 = 4 * x.significand + 2 := rfl
  have hbound := hx.significand_lt
  rcases h with hlt | ⟨heq, hlt⟩
  · have hmin : minExponent < y.exponent := lt_of_le_of_lt hx.le_exponent hlt
    have hbig := hy.le_significand hmin
    have hpow : 2 ^ 1 ≤ 2 ^ k := Nat.pow_le_pow_right (by omega) (by omega)
    have hscaled : y.rounding.1 * 2 ≤ y.rounding.1 * 2 ^ k := Nat.mul_le_mul_left _ hpow
    omega
  · have hk : k = 0 := by omega
    have hnormal := hx.le_significand
    rw [hk, pow_zero, Nat.mul_one]
    omega

/-- One interval ends where the other begins, or earlier. -/
theorem upper_le_lower (hx : x.Normalised) (hy : y.Normalised) (h : x.Before y) :
    x.upper ≤ y.lower ∧ (x.upper = y.lower → x.significand % 2 = 1 ∨ y.significand % 2 = 1) := by
  have hle : x.exponent ≤ y.exponent := h.elim le_of_lt fun h => h.1.le
  have hunit : (0 : ℚ) < 2 ^ (x.exponent - 2) := by positivity
  have hlower : y.lower =
      (y.rounding.1 * 2 ^ (y.exponent - x.exponent).toNat : ℕ) * 2 ^ (x.exponent - 2) := by
    unfold lower
    push_cast
    rw [mul_assoc, ← zpow_natCast, ← zpow_add₀ (by norm_num)]
    congr 2
    omega
  obtain ⟨hrounding, hodd⟩ := rounding_le hx hy h
  rw [hlower, upper]
  refine ⟨mul_le_mul_of_nonneg_right (by exact_mod_cast hrounding) hunit.le, fun heq => hodd ?_⟩
  exact_mod_cast mul_right_cancel₀ hunit.ne' heq

/-- A number is rounded to one normalised magnitude only. -/
theorem Attracts.unique (hx : x.Normalised) (hy : y.Normalised) (h : x.Attracts v)
    (h' : y.Attracts v) : x = y := by
  have hnot : ∀ {x y : Magnitude}, x.Normalised → y.Normalised → x.Attracts v → y.Attracts v →
      ¬ x.Before y := by
    intro x y hx hy h h' hbefore
    obtain ⟨hle, hodd⟩ := upper_le_lower hx hy hbefore
    have hupper : v = x.upper := le_antisymm h.le_upper (hle.trans h'.lower_le)
    have hlower : v = y.lower := le_antisymm (h.le_upper.trans hle) h'.lower_le
    have hx2 := h.even_of_upper hupper
    have hy2 := h'.even_of_lower hlower
    have := hodd (hupper.symm.trans hlower)
    omega
  by_contra hne
  exact (before_or_before hne).elim (hnot hx hy h h') (hnot hy hx h' h)

/-! ## Rounding -/

section Quotients

variable {num den : ℕ}

/-- The nearest natural number is one of the two neighbours. -/
theorem nearestNat_bounds (tie : Tie) (num den : ℕ) :
    num / den ≤ nearestNat tie num den ∧ nearestNat tie num den ≤ num / den + 1 := by
  unfold nearestNat
  dsimp only
  split_ifs <;> omega

theorem scaleDown_snd_pos (hden : 0 < den) (e : ℤ) : 0 < (scaleDown num den e).2 := by
  unfold scaleDown
  split
  · exact hden
  · rw [Nat.shiftLeft_eq]
    positivity

/-- Scaling down divides the quotient. -/
theorem scaleDown_eq (num den : ℕ) (e : ℤ) :
    ((scaleDown num den e).1 : ℚ) / (scaleDown num den e).2 = num / den / 2 ^ e := by
  rw [zpow_eq_div (by norm_num) e]
  unfold scaleDown
  split
  · next hneg =>
    rw [Int.toNat_of_nonpos hneg.le, Nat.shiftLeft_eq]
    push_cast
    field_simp
  · next hpos =>
    rw [Int.toNat_of_nonpos (neg_nonpos.2 (not_lt.1 hpos)), Nat.shiftLeft_eq]
    push_cast
    field_simp

/-- The binary logarithms tell a quotient up to a factor of two. -/
theorem quotient_bounds (hnum : num ≠ 0) (hden : 0 < den) :
    (2 : ℚ) ^ ((Nat.log2 num : ℤ) - Nat.log2 den - 1) ≤ num / den ∧
      (num / den : ℚ) < 2 ^ ((Nat.log2 num : ℤ) - Nat.log2 den + 1) := by
  have hd : (0 : ℚ) < den := by exact_mod_cast hden
  have hnum_ge : (2 : ℚ) ^ Nat.log2 num ≤ num := by exact_mod_cast Nat.log2_self_le hnum
  have hnum_lt : (num : ℚ) < 2 ^ (Nat.log2 num + 1) := by exact_mod_cast Nat.lt_log2_self
  have hden_ge : (2 : ℚ) ^ Nat.log2 den ≤ den := by exact_mod_cast Nat.log2_self_le hden.ne'
  have hden_lt : (den : ℚ) ≤ 2 ^ (Nat.log2 den + 1) := by exact_mod_cast Nat.lt_log2_self.le
  constructor
  · rw [show (Nat.log2 num : ℤ) - Nat.log2 den - 1 = Nat.log2 num - ((Nat.log2 den + 1 : ℕ) : ℤ) by
      push_cast; ring, zpow_sub₀ (by norm_num), zpow_natCast, zpow_natCast]
    exact div_le_div₀ (by positivity) hnum_ge hd hden_lt
  · rw [show (Nat.log2 num : ℤ) - Nat.log2 den + 1 = ((Nat.log2 num + 1 : ℕ) : ℤ) - Nat.log2 den by
      push_cast; ring, zpow_sub₀ (by norm_num), zpow_natCast, zpow_natCast]
    exact div_lt_div₀ hnum_lt hden_ge (by positivity) (by positivity)

/-- The exponent to which a quotient is rounded. -/
def binade (num den : ℕ) : ℤ :=
  let guess := max minExponent ((Nat.log2 num : ℤ) - Nat.log2 den - 53)
  if (scaleDown num den guess).2 <<< 53 ≤ (scaleDown num den guess).1 then guess + 1 else guess

/-- Comparing the parts of a scaled quotient with a power of two compares the quotient. -/
theorem shiftLeft_le_scaleDown_iff (hden : 0 < den) (e : ℤ) (k : ℕ) :
    (scaleDown num den e).2 * 2 ^ k ≤ (scaleDown num den e).1 ↔ (2 : ℚ) ^ (k + e) ≤ num / den := by
  have hpos : (0 : ℚ) < (scaleDown num den e).2 := by exact_mod_cast scaleDown_snd_pos hden e
  rw [zpow_add₀ (by norm_num), ← le_div_iff₀ (by positivity), ← scaleDown_eq, le_div_iff₀ hpos,
    zpow_natCast, mul_comm]
  exact_mod_cast Iff.rfl

/-- The quotient is below `2 ^ 53` units of the exponent that it is rounded to, and at least `2 ^ 52` of them
unless the exponent is the least one.  This it is not for quotients from one on. -/
theorem binade_spec (hnum : num ≠ 0) (hden : 0 < den) :
    minExponent ≤ binade num den ∧ (num / den : ℚ) < 2 ^ (53 + binade num den) ∧
      (minExponent < binade num den → (2 : ℚ) ^ (52 + binade num den) ≤ num / den) ∧
      (den ≤ num → minExponent < binade num den) := by
  obtain ⟨hlower, hupper⟩ := quotient_bounds hnum hden
  have hlog : den ≤ num → 0 ≤ (Nat.log2 num : ℤ) - Nat.log2 den := by
    intro hle
    have hone : (1 : ℚ) ≤ num / den :=
      (one_le_div (by exact_mod_cast hden)).2 (by exact_mod_cast hle)
    by_contra hneg
    exact absurd (hone.trans_lt hupper) (not_lt.2 (zpow_le_one_of_nonpos₀ (by norm_num) (by omega)))
  unfold binade
  simp only [Nat.shiftLeft_eq, shiftLeft_le_scaleDown_iff hden, Nat.cast_ofNat]
  generalize (Nat.log2 num : ℤ) - Nat.log2 den = l at *
  generalize (num / den : ℚ) = r at *
  have hmono : ∀ {i j : ℤ}, i ≤ j → (2 : ℚ) ^ i ≤ 2 ^ j := fun h => zpow_le_zpow_right₀ (by norm_num) h
  rcases lt_or_ge (l - 53) minExponent with hlt | hle
  · -- The quotient is too small to have 53 digits, and keeps the least exponent.
    have hsmall : r < 2 ^ (53 + minExponent) := hupper.trans_le (hmono (by omega))
    rw [max_eq_left hlt.le, if_neg (not_le.2 hsmall)]
    refine ⟨le_rfl, hsmall, fun h => absurd h (lt_irrefl _), fun h => ?_⟩
    have hl := hlog h
    unfold minExponent at hlt
    omega
  · -- The logarithms give the exponent up to one, and the comparison decides.
    rw [max_eq_right hle]
    split
    · next hbig =>
      exact ⟨by omega, hupper.trans_le (hmono (by omega)), fun _ => (hmono (by omega)).trans hbig,
        fun _ => by omega⟩
    · next hsmall =>
      refine ⟨hle, not_le.1 hsmall, fun _ => (hmono (by omega)).trans hlower, fun h => ?_⟩
      have hl := hlog h
      unfold minExponent
      omega

/-- A significand in units of an exponent; where it has too many digits it is halved. -/
def carry (m : ℕ) (e : ℤ) : Magnitude := if m = 1 <<< 53 then ⟨1 <<< 52, e + 1⟩ else ⟨m, e⟩

/-- The quotient in units of its exponent is rounded to a natural number. -/
theorem round_eq (hnum : num ≠ 0) : round num den =
    let x := carry (nearestNat .even (scaleDown num den (binade num den)).1
      (scaleDown num den (binade num den)).2) (binade num den)
    if maxExponent < x.exponent then none else some x := by
  unfold round binade
  rw [if_neg hnum]
  dsimp only
  generalize max minExponent ((Nat.log2 num : ℤ) - Nat.log2 den - 53) = guess
  cases scaleDown num den guess with
  | mk n d =>
    dsimp only
    generalize (if d <<< 53 ≤ n then guess + 1 else guess) = e
    cases scaleDown num den e
    rfl

/-- A significand of at most 53 digits, and of 53 digits unless the exponent is the least one, is that of a
normalised magnitude. -/
theorem normalised_carry {m : ℕ} {e : ℤ} (hle : m ≤ 2 ^ 53) (hmin : minExponent ≤ e)
    (hnormal : minExponent < e → 2 ^ 52 ≤ m) (hmax : (carry m e).exponent ≤ maxExponent) :
    (carry m e).Normalised ∧ e ≤ (carry m e).exponent := by
  by_cases hm : m = 2 ^ 53
  · have hcarry : carry m e = ⟨2 ^ 52, e + 1⟩ := if_pos hm
    rw [hcarry] at hmax ⊢
    have hle_e : e ≤ e + 1 := le_add_of_nonneg_right zero_le_one
    exact ⟨⟨by norm_num, hmin.trans hle_e, hmax, fun _ => le_rfl⟩, hle_e⟩
  · have hcarry : carry m e = ⟨m, e⟩ := if_neg hm
    rw [hcarry] at hmax ⊢
    exact ⟨⟨lt_of_le_of_ne hle hm, hmin, hmax, hnormal⟩, le_rfl⟩

/-- What a quotient is rounded to is normalised.  The exponent is the least one for quotients below one
only. -/
theorem normalised_of_round (hden : 0 < den) (h : round num den = some x) :
    x.Normalised ∧ (den ≤ num → minExponent < x.exponent) := by
  rcases eq_or_ne num 0 with rfl | hnum
  · cases h
    exact ⟨.zero, fun hle => absurd hden (not_lt.2 hle)⟩
  · rw [round_eq hnum, Option.ite_none_left_eq_some] at h
    obtain ⟨hexponent, heq⟩ := h
    obtain ⟨hmin, hlt, hge, hone⟩ := binade_spec hnum hden
    have hpos : 0 < (scaleDown num den (binade num den)).2 := scaleDown_snd_pos hden _
    have hscaled (k : ℕ) : (scaleDown num den (binade num den)).2 * 2 ^ k ≤
        (scaleDown num den (binade num den)).1 ↔ (2 : ℚ) ^ (k + binade num den) ≤ num / den :=
      shiftLeft_le_scaleDown_iff hden _ k
    have hbelow := mt (hscaled 53).1 (not_le.2 hlt)
    have habove := fun h => (hscaled 52).2 (hge h)
    rw [← Option.some_inj.1 heq]
    generalize binade num den = e at *
    generalize (scaleDown num den e).1 = n at *
    generalize (scaleDown num den e).2 = d at *
    obtain ⟨hle_m, hm_le⟩ := nearestNat_bounds .even n d
    have hfloor : n / d < 2 ^ 53 := (Nat.div_lt_iff_lt_mul hpos).2 (by rw [mul_comm]; exact not_le.1 hbelow)
    obtain ⟨hnormal, hcarry⟩ := normalised_carry (hm_le.trans hfloor) hmin
      (fun h => ((Nat.le_div_iff_mul_le hpos).2 (by rw [mul_comm]; exact habove h)).trans hle_m)
      (not_lt.1 hexponent)
    exact ⟨hnormal, fun h => (hone h).trans_le hcarry⟩

end Quotients

/-! ## Products and quotients -/

theorem toQuotient_snd_pos (x : Magnitude) : 0 < x.toQuotient.2 := by
  unfold toQuotient
  split
  · rw [Nat.one_shiftLeft]
    positivity
  · exact Nat.one_pos

theorem toQuotient_fst_pos (hx : x.significand ≠ 0) : 0 < x.toQuotient.1 := by
  unfold toQuotient
  split
  · exact Nat.pos_of_ne_zero hx
  · rw [Nat.shiftLeft_eq]
    exact Nat.mul_pos (Nat.pos_of_ne_zero hx) (by positivity)

theorem normalised_of_mul {z : Magnitude} (h : x.mul y = some z) : z.Normalised :=
  (normalised_of_round (Nat.mul_pos x.toQuotient_snd_pos y.toQuotient_snd_pos) h).1

theorem normalised_of_div {z : Magnitude} (hy : y.significand ≠ 0) (h : x.div y = some z) :
    z.Normalised :=
  (normalised_of_round (Nat.mul_pos x.toQuotient_snd_pos (toQuotient_fst_pos hy)) h).1

/-- Powers of ten from one on are not rounded to zero. -/
theorem significand_ne_zero_of_power {e : ℤ} (he : 0 ≤ e) (h : ofDecimal 1 e = some x) :
    x.significand ≠ 0 := by
  unfold ofDecimal at h
  rw [if_neg (not_lt.2 he), Nat.one_mul] at h
  obtain ⟨hx, hexponent⟩ := normalised_of_round Nat.one_pos h
  have hbig := hx.le_significand (hexponent (Nat.pow_pos (by norm_num)))
  omega

end Magnitude

end ShapeGraph
