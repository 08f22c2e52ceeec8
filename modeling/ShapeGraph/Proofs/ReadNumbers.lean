import ShapeGraph.Proofs.JsonTexts

/-!
# Numbers that are read are normalised

Whatever the literal, reading it ends with a rounding, or with zero.  So the fractional numbers in a JSON text
that is read are normalised.

## Main results

* `Literal.normalised_of_value` — the number that a literal stands for is normalised.
* `Json.normalised_of_parse?` — so are all numbers in a value that is read.
-/

set_option autoImplicit false

namespace ShapeGraph

/-! ## Literals -/

namespace Literal

variable {x y : Magnitude}

theorem normalised_of_shrink {k : ℕ} (hx : x.Normalised) (h : shrink k x = some y) : y.Normalised := by
  induction k generalizing x with
  | zero =>
    cases h
    exact hx
  | succ k ih =>
    unfold shrink at h
    split at h
    · cases h
      exact hx
    · obtain ⟨quotient, hquotient, hrest⟩ := Option.bind_eq_some_iff.1 h
      obtain ⟨power, hpower, hdiv⟩ := Option.bind_eq_some_iff.1 hquotient
      have hne := Magnitude.significand_ne_zero_of_power (by decide) hpower
      exact ih (Magnitude.normalised_of_div hne hdiv) hrest

theorem normalised_of_scale {e : ℤ} (hx : x.Normalised) (h : scale x e = some y) : y.Normalised := by
  unfold scale at h
  split at h
  · split at h
    · obtain ⟨power, -, hmul⟩ := Option.bind_eq_some_iff.1 h
      exact Magnitude.normalised_of_mul hmul
    · split at h
      · cases h
        exact hx
      · cases h
  · obtain ⟨shrunk, hshrunk, hrest⟩ := Option.bind_eq_some_iff.1 h
    split at hrest
    · cases hrest
      exact normalised_of_shrink hx hshrunk
    · obtain ⟨power, hpower, hdiv⟩ := Option.bind_eq_some_iff.1 hrest
      have hne := Magnitude.significand_ne_zero_of_power (Int.natCast_nonneg _) hpower
      exact Magnitude.normalised_of_div hne hdiv

theorem normalised_of_build {l : Literal} {n : ℕ} {e : ℤ} {d : Double}
    (h : toDouble.build l n e = some d) : d.magnitude.Normalised := by
  obtain ⟨whole, hwhole, hscaled⟩ := Option.bind_eq_some_iff.1 h
  obtain ⟨magnitude, hmagnitude, rfl⟩ := Option.map_eq_some_iff.1 hscaled
  exact normalised_of_scale (Magnitude.normalised_of_round Nat.one_pos hwhole).1 hmagnitude

theorem normalised_of_toDouble {l : Literal} {d : Double} (h : l.toDouble = some d) :
    d.magnitude.Normalised := by
  unfold toDouble at h
  dsimp only at h
  split at h
  · exact normalised_of_build h
  · split at h
    · exact normalised_of_build h
    · split at h
      · cases h
      · cases h
        exact .zero

/-- The number that a literal stands for is normalised. -/
theorem normalised_of_value {l : Literal} {n : Number} (h : l.value = some n) : n.Normalised := by
  have hfloat : ∀ {n : Number}, l.toDouble.map Number.float = some n → n.Normalised := by
    intro n h
    obtain ⟨d, hd, rfl⟩ := Option.map_eq_some_iff.1 h
    exact normalised_of_toDouble hd
  unfold value at h
  dsimp only at h
  split at h
  · exact hfloat h
  · split at h
    · split at h
      · exact hfloat h
      · cases h
        trivial
    · split at h
      · cases h
        trivial
      · exact hfloat h

end Literal

/-! ## Values -/

namespace Json

theorem normalised_of_takeNumber {cs rest : List Char} {n : Number}
    (h : takeNumber cs = some (n, rest)) : n.Normalised := by
  unfold takeNumber at h
  dsimp only at h
  rw [Option.ite_none_left_eq_some] at h
  obtain ⟨fraction, -, h⟩ := Option.bind_eq_some_iff.1 h.2
  obtain ⟨exponent, -, h⟩ := Option.bind_eq_some_iff.1 h
  obtain ⟨value, hvalue, h⟩ := Option.bind_eq_some_iff.1 h
  cases h
  exact Literal.normalised_of_value hvalue

theorem membersNormalised_setMember {key : String} {value : Json} (hvalue : value.Normalised)
    {members : List (String × Json)} (hmembers : MembersNormalised members) :
    MembersNormalised (setMember key value members) := by
  induction members with
  | nil => exact ⟨hvalue, trivial⟩
  | cons m members ih =>
    unfold setMember
    split
    · exact ⟨hvalue, hmembers.2⟩
    · exact ⟨hmembers.1, ih hmembers.2⟩

mutual

/-- A value at the beginning of a text is normalised. -/
theorem normalised_of_takeValue (fuel depth : ℕ) {cs rest : List Char} {v : Json}
    (h : takeValue fuel depth cs = some (v, rest)) : v.Normalised := by
  cases fuel with
  | zero => cases h
  | succ fuel =>
    unfold takeValue at h
    split at h
    · cases h
      trivial
    · cases h
      trivial
    · cases h
      trivial
    · obtain ⟨string, -, heq⟩ := Option.map_eq_some_iff.1 h
      cases heq
      trivial
    · split at h
      · cases h
      · split at h
        · cases h
          trivial
        · obtain ⟨⟨items, tail⟩, hitems, heq⟩ := Option.map_eq_some_iff.1 h
          cases heq
          exact itemsNormalised_of_takeItems fuel _ hitems
    · split at h
      · cases h
      · split at h
        · cases h
          trivial
        · obtain ⟨⟨members, tail⟩, hmembers, heq⟩ := Option.map_eq_some_iff.1 h
          cases heq
          have hnone : MembersNormalised [] := trivial
          exact membersNormalised_of_takeMembers fuel _ hnone hmembers
    · obtain ⟨⟨n, tail⟩, hn, heq⟩ := Option.map_eq_some_iff.1 h
      cases heq
      exact normalised_of_takeNumber hn

/-- The items of an array are normalised. -/
theorem itemsNormalised_of_takeItems (fuel depth : ℕ) {cs rest : List Char} {items : List Json}
    (h : takeItems fuel depth cs = some (items, rest)) : ItemsNormalised items := by
  cases fuel with
  | zero => cases h
  | succ fuel =>
    unfold takeItems at h
    obtain ⟨⟨v, tail⟩, hv, h⟩ := Option.bind_eq_some_iff.1 h
    have hfirst := normalised_of_takeValue fuel depth hv
    dsimp only at h
    split at h
    · obtain ⟨⟨others, afterItems⟩, hothers, h⟩ := Option.bind_eq_some_iff.1 h
      cases h
      exact ⟨hfirst, itemsNormalised_of_takeItems fuel depth hothers⟩
    · cases h
      exact ⟨hfirst, trivial⟩
    · cases h

/-- The members of an object are normalised. -/
theorem membersNormalised_of_takeMembers (fuel depth : ℕ) {before members : List (String × Json)}
    {cs rest : List Char} (hbefore : MembersNormalised before)
    (h : takeMembers fuel depth before cs = some (members, rest)) : MembersNormalised members := by
  cases fuel with
  | zero => cases h
  | succ fuel =>
    unfold takeMembers at h
    split at h
    · obtain ⟨⟨key, afterKey⟩, -, h⟩ := Option.bind_eq_some_iff.1 h
      dsimp only at h
      split at h
      · obtain ⟨⟨v, tail⟩, hv, h⟩ := Option.bind_eq_some_iff.1 h
        have hset : MembersNormalised (setMember (String.ofList key) v before) :=
          membersNormalised_setMember (normalised_of_takeValue fuel depth hv) hbefore
        dsimp only at h
        split at h
        · exact membersNormalised_of_takeMembers fuel depth hset h
        · cases h
          exact hset
        · cases h
      · cases h
    · cases h

end

/-- A value that is read is normalised. -/
theorem normalised_of_parse? {depth : ℕ} {text : String} {v : Json} (h : parse? depth text = some v) :
    v.Normalised := by
  unfold parse? at h
  split at h
  · next htake =>
    split at h
    · cases h
      exact normalised_of_takeValue _ depth htake
    · cases h
  · cases h

end Json

end ShapeGraph
