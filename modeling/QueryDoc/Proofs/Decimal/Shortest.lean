import QueryDoc.Proofs.Decimal.Rounding

/-! The shortest decimal of a number lies in its interval, so it is read back as that number.
A decimal is taken from a grid only if it lies there, and the nearest decimal on the finest
grid that is tried does anyway: with seventeen digits and more its distance from the number is
less than a quarter of a place. -/
namespace QueryDoc.Decimal
open Binary64

/-- The value of a decimal. -/
def value (d : Decimal) : ℚ := d.digits * 10 ^ d.exponent

/-- A decimal as a fraction. -/
theorem divPow_value (d : Decimal) :
    0 < (divPow 10 d.digits 1 (-d.exponent)).2 ∧
      ((divPow 10 d.digits 1 (-d.exponent)).1 : ℚ) / (divPow 10 d.digits 1 (-d.exponent)).2 =
        d.value := by
  obtain ⟨hpos, hvalue⟩ := divPow_spec (show 0 < 10 by decide) d.digits Nat.one_pos
    (-d.exponent)
  refine ⟨hpos, hvalue.trans ?_⟩
  rw [zpow_neg, div_inv_eq_mul, Nat.cast_one, div_one, Nat.cast_ofNat, value]

section Scale
variable {a scale unit num den : Nat}

theorem scaled_le (hunit : 0 < unit) (hden : 0 < den) :
    a * scale * den ≤ num * unit ↔ (a * (scale / unit) : ℚ) ≤ num / den := by
  have hunit' : (0 : ℚ) < unit := by exact_mod_cast hunit
  have hden' : (0 : ℚ) < den := by exact_mod_cast hden
  rw [← mul_div_assoc, div_le_div_iff₀ hunit' hden']
  exact_mod_cast Iff.rfl

theorem le_scaled (hunit : 0 < unit) (hden : 0 < den) :
    num * unit ≤ a * scale * den ↔ (num / den : ℚ) ≤ a * (scale / unit) := by
  have hunit' : (0 : ℚ) < unit := by exact_mod_cast hunit
  have hden' : (0 : ℚ) < den := by exact_mod_cast hden
  rw [← mul_div_assoc, div_le_div_iff₀ hden' hunit']
  exact_mod_cast Iff.rfl

end Scale

/-- A decimal is found to read back as a number just where it lies in the interval of it. -/
theorem reads_iff (x : Binary64) (d : Decimal) : reads x d = true ↔ x.Near d.value := by
  obtain ⟨hden, hvalue⟩ := d.divPow_value
  obtain ⟨hunit, hscale⟩ := divPow_spec Nat.two_pos 1 Nat.one_pos (2 - x.exponent)
  rw [Nat.cast_one, div_one, one_div, Nat.cast_ofNat, ← zpow_neg, neg_sub] at hscale
  unfold reads Near
  simp only [← hscale, ← hvalue]
  by_cases heven : x.significand % 2 = 0
  · simp only [heven, if_true, Bool.and_eq_true, decide_eq_true_eq, scaled_le hunit hden,
      le_scaled hunit hden]
  · simp only [heven, if_false, Bool.and_eq_true, decide_eq_true_eq, ← not_le,
      scaled_le hunit hden, le_scaled hunit hden]

theorem reads_of_onGrid? {x : Binary64} {num den : Nat} {place : Int} {d : Decimal}
    (h : onGrid? x num den place = some d) : reads x d = true := by
  unfold onGrid? at h
  dsimp only at h
  split at h
  · next hlower hupper =>
    cases h
    split
    · exact hlower
    · exact hupper
  · next hlower _ =>
    cases h
    exact hlower
  · next _ hupper =>
    cases h
    exact hupper
  · cases h

variable {x : Binary64}

/-- A value less than a quarter of a place away from a number lies in its interval. -/
theorem near_of_close (hpos : 0 < x.significand) {v : ℚ}
    (hlow : x.significand - 1 / 4 < v / 2 ^ x.exponent)
    (hhigh : v / 2 ^ x.exponent < x.significand + 1 / 4) : x.Near v := by
  have hdown : 1 / 4 ≤ x.down := by
    rcases x.down_cases with ⟨h, -⟩ | ⟨h, -⟩
    · rw [h]
    · rw [h]
      norm_num
  rw [near_iff hpos]
  split
  · exact ⟨by linarith, by linarith⟩
  · exact ⟨by linarith, by linarith⟩

theorem near_search (hpos : 0 < x.significand) {num den : Nat} (hden : 0 < den)
    (hvalue : (num / den : ℚ) = x.magnitude) (fuel : Nat) (place : Int)
    (hfine : (10 : ℚ) ^ (place - fuel) < 2 ^ x.exponent / 2) :
    x.Near (search x num den fuel place).value := by
  induction fuel generalizing place with
  | zero =>
    have hplace : (0 : ℚ) < 2 ^ x.exponent := zpow_pos two_pos _
    have hgrid : (0 : ℚ) < 10 ^ place := zpow_pos (by norm_num) _
    rw [Nat.cast_zero, sub_zero] at hfine
    obtain ⟨hpos', hquotient⟩ := divPow_spec (show 0 < 10 by decide) num hden place
    obtain ⟨hlow, hhigh, -⟩ := roundDiv_nearest (divPow 10 num den place).1 hpos'
    rw [hquotient, hvalue, Nat.cast_ofNat, magnitude] at hlow hhigh
    rw [le_div_iff₀ hgrid] at hlow
    rw [div_le_iff₀ hgrid] at hhigh
    have hsearch : (search x num den 0 place).value =
        roundDiv (divPow 10 num den place).1 (divPow 10 num den place).2 * 10 ^ place := rfl
    rw [hsearch]
    refine near_of_close hpos ?_ ?_
    · rw [lt_div_iff₀ hplace]
      linarith
    · rw [div_lt_iff₀ hplace]
      linarith
  | succ fuel ih =>
    have hcase : search x num den (fuel + 1) place =
        (onGrid? x num den place).getD (search x num den fuel (place - 1)) := by
      rw [search]
      cases onGrid? x num den place <;> rfl
    rw [hcase]
    cases hgrid : onGrid? x num den place with
    | some d => exact (reads_iff x d).mp (reads_of_onGrid? hgrid)
    | none =>
      refine ih (place - 1) ?_
      rwa [sub_sub, add_comm, ← Nat.cast_succ]

theorem value_dropZeros (fuel : Nat) (d : Decimal) : (dropZeros fuel d).value = d.value := by
  induction fuel generalizing d with
  | zero => rfl
  | succ fuel ih =>
    rw [dropZeros]
    split
    · next h =>
      have hdigits : d.digits = d.digits / 10 * 10 :=
        (Nat.div_mul_cancel (Nat.dvd_of_mod_eq_zero h.2)).symm
      have hcast : (d.digits : ℚ) = (d.digits / 10 : Nat) * 10 := by exact_mod_cast hdigits
      rw [ih, value, value, hcast, zpow_add_one₀ (by norm_num)]
      ring
    · rfl

/-- The shortest decimal of a number lies in its interval. -/
theorem near_shortest (hx : x.Canonical) (hpos : 0 < x.significand) :
    x.Near (shortest x).value := by
  have hplace : (0 : ℚ) < 2 ^ x.exponent := zpow_pos two_pos _
  obtain ⟨hden, hvalue⟩ := divPow_spec Nat.two_pos x.significand Nat.one_pos
    (-x.exponent)
  rw [zpow_neg, div_inv_eq_mul, Nat.cast_one, div_one, Nat.cast_ofNat] at hvalue
  have hnum : 0 < (divPow 2 x.significand 1 (-x.exponent)).1 := by
    have hpositive : (0 : ℚ) < x.significand * 2 ^ x.exponent := by positivity
    have hden' : (0 : ℚ) < (divPow 2 x.significand 1 (-x.exponent)).2 := by exact_mod_cast hden
    rw [← hvalue] at hpositive
    exact_mod_cast (div_pos_iff_of_pos_right hden').mp hpositive
  have hfloor := floorLog10_spec hnum hden
  rw [hvalue] at hfloor
  unfold shortest
  dsimp only
  rw [value_dropZeros]
  refine near_search hpos hden hvalue 17 _ ?_
  -- Seventeen digits below the first one are finer than half a place.
  have hbounded : (x.significand : ℚ) < 2 ^ 53 := by exact_mod_cast hx.bounded
  rw [Nat.cast_ofNat, zpow_sub₀ (by norm_num), div_lt_iff₀ (by norm_num)]
  calc (10 : ℚ) ^ floorLog10 _ _ ≤ x.significand * 2 ^ x.exponent := hfloor
    _ < 2 ^ 53 * 2 ^ x.exponent := by gcongr
    _ ≤ 10 ^ (17 : Int) / 2 * 2 ^ x.exponent := by
      gcongr
      norm_num
    _ = 2 ^ x.exponent / 2 * 10 ^ (17 : Int) := by ring

end QueryDoc.Decimal
