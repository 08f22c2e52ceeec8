import Mathlib.Tactic.Qify
import ShapeGraph.Proofs.Doubles

/-!
# Shortest digits tell numbers apart

The shortest digits of a number are found among the decimals that are rounded to it: with 17 digits there
always is one.  Since no decimal is rounded to two numbers, the digits tell which number they were found for.

## Main definitions

* `Magnitude.nearestDigits` — the nearest digits with the last of them at a given place.
* `Magnitude.digitsValue` — the number that the shortest digits stand for.

## Main results

* `Magnitude.leadingPlace_le` — the first digit is looked for no higher than it stands.
* `Magnitude.isSome_nearestAt` — seventeen digits suffice.
* `Magnitude.attracts_digitsValue` — the shortest digits are rounded to the number.
* `Magnitude.eq_of_digitsValue_eq` — they tell normalised numbers apart.
-/

set_option autoImplicit false

namespace ShapeGraph

namespace Magnitude

variable {x y : Magnitude} {tie : Tie} {v : ℚ}

/-! ## The place of the first digit -/

/-- A power of ten is compared with a power of two through some powers of both. -/
theorem zpow_le_zpow_of_mul_le {g b : ℤ} {k j : ℕ} (hk : k ≠ 0) (hle : g * k ≤ j * b)
    (hpow : ((10 : ℚ) ^ j) ^ b ≤ (2 ^ k) ^ b) : (10 : ℚ) ^ g ≤ 2 ^ b := by
  refine le_of_pow_le_pow_left₀ hk (by positivity) ?_
  calc ((10 : ℚ) ^ g) ^ k = 10 ^ (g * k) := by rw [zpow_mul, zpow_natCast]
    _ ≤ 10 ^ (j * b) := zpow_le_zpow_right₀ (by norm_num) hle
    _ = (10 ^ j) ^ b := by rw [zpow_mul, zpow_natCast]
    _ ≤ (2 ^ k) ^ b := hpow
    _ = (2 ^ b) ^ k := by rw [← zpow_natCast (2 ^ b) k, ← zpow_mul, mul_comm, zpow_mul, zpow_natCast]

/-- The guess for the place of the first digit is not too high.  Of the logarithm of two, `28 / 93` is just
above it and `59 / 196` just below. -/
theorem ten_zpow_le_two_zpow {b : ℤ} (hlow : -2000 ≤ b) (hhigh : b ≤ 2000) :
    (10 : ℚ) ^ ((b * 30103 - 100000) / 100000) ≤ 2 ^ b := by
  rcases le_or_gt 0 b with hb | hb
  · refine zpow_le_zpow_of_mul_le (k := 196) (j := 59) (by norm_num) (by omega) ?_
    exact zpow_le_zpow_left₀ hb (by norm_num) (by norm_num)
  · refine zpow_le_zpow_of_mul_le (k := 93) (j := 28) (by norm_num) (by omega) ?_
    obtain ⟨n, rfl⟩ : ∃ n : ℕ, b = -n := ⟨b.natAbs, by omega⟩
    rw [zpow_neg, zpow_neg, zpow_natCast, zpow_natCast]
    exact inv_anti₀ (by positivity) (pow_le_pow_left₀ (by positivity) (by norm_num) n)

/-- The first digit is looked for no higher than it stands. -/
theorem leadingPlace_le (hx : x.Normalised) (hne : x.significand ≠ 0) :
    (10 : ℚ) ^ x.leadingPlace ≤ x.value := by
  have hcompare : ∀ {e : ℤ}, compareDecimal 1 e x.significand x.exponent ≠ .gt →
      (10 : ℚ) ^ e ≤ x.value := by
    intro e h
    have := compareDecimal_ne_gt_iff.1 h
    rwa [Nat.cast_one, one_mul] at this
  unfold leadingPlace
  simp only [bne_iff_ne]
  split
  · next h => exact hcompare h
  · split
    · next h => exact hcompare h
    · have hmin := hx.le_exponent
      have hmax := hx.exponent_le
      have hlog : Nat.log2 x.significand < 53 := (Nat.log2_lt hne).2 hx.significand_lt
      unfold minExponent at hmin
      unfold maxExponent at hmax
      refine (ten_zpow_le_two_zpow (by omega) (by omega)).trans ?_
      rw [zpow_add₀ (by norm_num), zpow_natCast, mul_comm]
      have hself : (2 : ℚ) ^ Nat.log2 x.significand ≤ x.significand := by
        exact_mod_cast Nat.log2_self_le hne
      exact mul_le_mul_of_nonneg_right hself (by positivity)

/-! ## Seventeen digits -/

/-- Rounding to a natural number is off by at most one half. -/
theorem abs_nearestNat_sub_le {num den : ℕ} (hden : 0 < den) :
    |(nearestNat tie num den : ℚ) - num / den| ≤ 1 / 2 := by
  have hnear : 2 * (nearestNat tie num den * den) ≤ 2 * num + den ∧
      2 * num ≤ 2 * (nearestNat tie num den * den) + den := by
    have hmod := Nat.mod_lt num hden
    have hdiv := Nat.div_add_mod' num den
    have hsucc : (num / den + 1) * den = num / den * den + den := Nat.succ_mul (num / den) den
    unfold nearestNat
    dsimp only
    split_ifs <;> omega
  obtain ⟨hle, hge⟩ := hnear
  have hd : (0 : ℚ) < den := by exact_mod_cast hden
  qify at hle hge
  have hlower : (nearestNat tie num den : ℚ) - 1 / 2 ≤ num / den := (le_div_iff₀ hd).2 (by linarith)
  have hupper : (num : ℚ) / den ≤ nearestNat tie num den + 1 / 2 := (div_le_iff₀ hd).2 (by linarith)
  exact abs_le.2 ⟨by linarith, by linarith⟩

/-- In quarters of the unit, the ends of the interval are further from the significand than its part in
`2 * 10 ^ 16`. -/
theorem rounding_bounds (hx : x.Normalised) (hne : x.significand ≠ 0) :
    (x.rounding.1 : ℚ) < 4 * x.significand - 4 * x.significand / (2 * 10 ^ 16) ∧
      4 * x.significand + 4 * x.significand / (2 * 10 ^ 16) < (x.rounding.2 : ℚ) := by
  have hbound : (x.significand : ℚ) + 1 ≤ 2 ^ 53 := by exact_mod_cast hx.significand_lt
  have hpos : (1 : ℚ) ≤ x.significand := by exact_mod_cast Nat.pos_of_ne_zero hne
  have hcast : ∀ k : ℕ, k ≤ 2 → ((4 * x.significand - k : ℕ) : ℚ) = 4 * x.significand - k := by
    intro k hk
    rw [Nat.cast_sub (by omega)]
    push_cast
    rfl
  unfold rounding
  dsimp only
  rw [Nat.one_shiftLeft]
  constructor
  · split
    · next hpower =>
      rw [hcast 1 (by norm_num), hpower.1]
      norm_num
    · rw [hcast 2 le_rfl]
      push_cast
      linarith
  · push_cast
    linarith

/-- What differs from a number by less than its part in `2 * 10 ^ 16` is rounded to it. -/
theorem attracts_of_near (hx : x.Normalised) (hne : x.significand ≠ 0)
    (h : |v - x.value| ≤ x.value / (2 * 10 ^ 16)) : x.Attracts v := by
  have hunit : (0 : ℚ) < 2 ^ (x.exponent - 2) := by positivity
  have hvalue : x.value = 4 * x.significand * 2 ^ (x.exponent - 2) := by
    rw [value, zpow_sub₀ (by norm_num)]
    ring
  obtain ⟨hlow, hhigh⟩ := rounding_bounds hx hne
  have hlower : x.lower < x.value - x.value / (2 * 10 ^ 16) := by
    have := mul_lt_mul_of_pos_right hlow hunit
    rw [lower, hvalue]
    linarith
  have hupper : x.value + x.value / (2 * 10 ^ 16) < x.upper := by
    have := mul_lt_mul_of_pos_right hhigh hunit
    rw [upper, hvalue]
    linarith
  obtain ⟨hge, hle⟩ := abs_le.1 h
  have hlv : x.lower < v := by linarith
  have hvu : v < x.upper := by linarith
  exact ⟨hlv.le, hvu.le, fun heq => absurd heq hlv.ne', fun heq => absurd heq hvu.ne⟩

/-- The digits nearest to a number when the last of them stands at place `e`, whether they are rounded to it
or not. -/
def nearestDigits (tie : Tie) (x : Magnitude) (e : ℤ) : ℕ :=
  nearestNat tie ((x.significand * Nat.pow 10 (-e).toNat) <<< x.exponent.toNat)
    (Nat.pow 10 e.toNat <<< (-x.exponent).toNat)

/-- The nearest digits are off by at most half a unit of their last place. -/
theorem abs_nearestDigits_sub_le (tie : Tie) (x : Magnitude) (e : ℤ) :
    |(nearestDigits tie x e : ℚ) * 10 ^ e - x.value| ≤ 10 ^ e / 2 := by
  have hten : (0 : ℚ) < 10 ^ e := by positivity
  have hden : 0 < Nat.pow 10 e.toNat <<< (-x.exponent).toNat := by
    rw [Nat.shiftLeft_eq]
    exact Nat.mul_pos (Nat.pow_pos (by norm_num)) (by positivity)
  have hquotient : (((x.significand * Nat.pow 10 (-e).toNat) <<< x.exponent.toNat : ℕ) : ℚ) /
      (Nat.pow 10 e.toNat <<< (-x.exponent).toNat : ℕ) = x.value / 10 ^ e := by
    rw [value, zpow_eq_div (by norm_num) x.exponent, zpow_eq_div (by norm_num) e, Nat.shiftLeft_eq,
      Nat.shiftLeft_eq]
    push_cast [Nat.pow_eq]
    field_simp
  have hnear : |(nearestDigits tie x e : ℚ) - x.value / 10 ^ e| ≤ 1 / 2 :=
    hquotient ▸ abs_nearestNat_sub_le hden
  have hscaled : (nearestDigits tie x e : ℚ) * 10 ^ e - x.value =
      (nearestDigits tie x e - x.value / 10 ^ e) * 10 ^ e := by
    field_simp
  rw [hscaled, abs_mul, abs_of_pos hten]
  calc |(nearestDigits tie x e : ℚ) - x.value / 10 ^ e| * 10 ^ e ≤ 1 / 2 * 10 ^ e :=
        mul_le_mul_of_nonneg_right hnear hten.le
    _ = 10 ^ e / 2 := by ring

/-- The nearest digits are tried first, and a neighbour of them next. -/
theorem exists_nearestAt_eq (tie : Tie) (x : Magnitude) (e : ℤ) : ∃ other, nearestAt tie x e =
    if x.roundsTo (nearestDigits tie x e) e then some (nearestDigits tie x e)
    else if x.roundsTo other e then some other else none := ⟨_, rfl⟩

/-- Digits that are found are rounded to the number. -/
theorem roundsTo_of_nearestAt {e : ℤ} {c : ℕ} (h : nearestAt tie x e = some c) :
    x.roundsTo c e = true := by
  obtain ⟨other, heq⟩ := exists_nearestAt_eq tie x e
  rw [heq] at h
  split at h
  · next hnearest => exact Option.some_inj.1 h ▸ hnearest
  · obtain ⟨hother, hc⟩ := Option.ite_none_right_eq_some.1 h
    exact Option.some_inj.1 hc ▸ hother

/-- Seventeen digits suffice: with the last of them sixteen places below the first digit of the number, the
nearest ones are rounded to it. -/
theorem isSome_nearestAt (hx : x.Normalised) (hne : x.significand ≠ 0) {e : ℤ}
    (he : (10 : ℚ) ^ (e + 16) ≤ x.value) : (nearestAt tie x e).isSome = true := by
  have hnear : |(nearestDigits tie x e : ℚ) * 10 ^ e - x.value| ≤ x.value / (2 * 10 ^ 16) := by
    refine (abs_nearestDigits_sub_le tie x e).trans ?_
    rw [zpow_add₀ (by norm_num)] at he
    norm_num at he
    linarith
  obtain ⟨other, heq⟩ := exists_nearestAt_eq tie x e
  rw [heq, if_pos (roundsTo_iff.2 (attracts_of_near hx hne hnear))]
  rfl

/-! ## The digits -/

/-- Zeros that are dropped are counted. -/
theorem dropZeros_spec (fuel c : ℕ) : (dropZeros fuel c).1 * 10 ^ (dropZeros fuel c).2 = c := by
  induction fuel generalizing c with
  | zero => simp [dropZeros]
  | succ fuel ih =>
    unfold dropZeros
    split
    · next h =>
      have hrest := ih (c / 10)
      rw [pow_succ, ← mul_assoc, hrest]
      omega
    · simp

/-- The number that the shortest digits stand for. -/
def digitsValue (tie : Tie) (x : Magnitude) : ℚ := (shortest tie x).1 * 10 ^ (shortest tie x).2

/-- The shortest digits of a number are rounded to it. -/
theorem attracts_digitsValue (hx : x.Normalised) (hne : x.significand ≠ 0) :
    x.Attracts (digitsValue tie x) := by
  have hfound : ((List.range 17).findSome? fun (n : ℕ) =>
      (nearestAt tie x (x.leadingPlace - n)).map fun c => (c, x.leadingPlace - n)).isSome = true := by
    rw [List.findSome?_isSome_iff]
    refine ⟨16, by simp, ?_⟩
    rw [Option.isSome_map]
    refine isSome_nearestAt hx hne ?_
    simpa using leadingPlace_le hx hne
  obtain ⟨⟨c, e⟩, hce⟩ := Option.isSome_iff_exists.1 hfound
  obtain ⟨n, -, hn⟩ := List.exists_of_findSome?_eq_some hce
  obtain ⟨c', hnearest, heq⟩ := Option.map_eq_some_iff.1 hn
  cases heq
  have hshortest : shortest tie x = ((dropZeros 20 c).1, x.leadingPlace - n + (dropZeros 20 c).2) := by
    unfold shortest
    have hzero : x.isZero = false := by simpa [isZero] using hne
    rw [hzero]
    dsimp only
    rw [hce]
    rfl
  have hvalue : digitsValue tie x = c * 10 ^ (x.leadingPlace - n) := by
    rw [digitsValue, hshortest, zpow_add₀ (by norm_num), zpow_natCast, mul_comm (10 ^ _ : ℚ), ← mul_assoc]
    congr 1
    exact_mod_cast dropZeros_spec 20 c
  rw [hvalue]
  exact roundsTo_iff.1 (roundsTo_of_nearestAt hnearest)

theorem digitsValue_of_zero (h : x.significand = 0) : digitsValue tie x = 0 := by
  have hzero : x.isZero = true := by simpa [isZero] using h
  rw [digitsValue, shortest, if_pos hzero]
  simp

/-- Only zero has the digits of zero. -/
theorem digitsValue_pos (hx : x.Normalised) (hne : x.significand ≠ 0) : 0 < digitsValue tie x := by
  have hrounding : 0 < x.rounding.1 := by
    unfold rounding
    dsimp only
    split <;> omega
  have hlower : 0 < x.lower := mul_pos (by exact_mod_cast hrounding) (by positivity)
  exact hlower.trans_le (attracts_digitsValue hx hne).lower_le

theorem Normalised.eq_zero (hx : x.Normalised) (h : x.significand = 0) : x = Magnitude.zero := by
  have hexponent : x.exponent = minExponent := by
    by_contra hne
    have := hx.le_significand (lt_of_le_of_ne hx.le_exponent (Ne.symm hne))
    omega
  cases x
  cases h
  cases hexponent
  rfl

/-- The shortest digits tell normalised numbers apart. -/
theorem eq_of_digitsValue_eq (hx : x.Normalised) (hy : y.Normalised)
    (h : digitsValue tie x = digitsValue tie y) : x = y := by
  by_cases hzero : x.significand = 0
  · by_cases hzero' : y.significand = 0
    · rw [hx.eq_zero hzero, hy.eq_zero hzero']
    · exact absurd (h.symm.trans (digitsValue_of_zero hzero)) (digitsValue_pos hy hzero').ne'
  · by_cases hzero' : y.significand = 0
    · exact absurd (h.trans (digitsValue_of_zero hzero')) (digitsValue_pos hx hzero).ne'
    · exact Attracts.unique hx hy (attracts_digitsValue hx hzero) (h ▸ attracts_digitsValue hy hzero')

end Magnitude

end ShapeGraph
