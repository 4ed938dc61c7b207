import QueryDoc.Proofs.Decimal.Range

/-! The one form of a number. Every operation rounds its exact result, and what a fraction is
rounded to is held with as many digits as there is room for. -/
namespace QueryDoc.Binary64

theorem canonical_zero (negative : Bool) : (zero negative).Canonical :=
  ⟨Nat.two_pow_pos 53, le_rfl, show minExponent ≤ 971 by decide, .inr rfl⟩

variable {x y z : Binary64} {negative : Bool}

theorem ofRatio_canonical {num den : Nat} (hden : 0 < den)
    (h : ofRatio negative num den = some x) : x.Canonical := by
  rcases Nat.eq_zero_or_pos num with rfl | hnum
  · cases h
    exact canonical_zero negative
  · exact (ofRatio_spec hnum hden h).1

theorem mul_canonical (h : x.mul y = some z) : z.Canonical := by
  have hden := (divPow_spec Nat.two_pos (x.significand * y.significand) Nat.one_pos
    (-(x.exponent + y.exponent))).1
  exact ofRatio_canonical hden h

theorem div_canonical (hy : 0 < y.significand) (h : x.div y = some z) : z.Canonical := by
  have hden := (divPow_spec Nat.two_pos x.significand hy (y.exponent - x.exponent)).1
  exact ofRatio_canonical hden h

theorem ofNat_canonical {n : Nat} (h : ofNat negative n = some x) : x.Canonical :=
  ofRatio_canonical Nat.one_pos h

/-- A positive integer is too large to be rounded to zero. -/
theorem ofNat_pos {n : Nat} (hn : 0 < n) (h : ofNat negative n = some x) : 0 < x.significand := by
  obtain ⟨hx, -, hnearest, -⟩ := ofRatio_spec hn Nat.one_pos h
  by_contra hzero
  have hsignificand : x.significand = 0 := Nat.eq_zero_of_not_pos hzero
  have hexponent : x.exponent = -1074 := hx.full.resolve_left (by rw [hsignificand]; decide)
  have hhigh := hnearest.high
  rw [hsignificand, hexponent, Nat.cast_one, div_one, div_le_iff₀ (by positivity)] at hhigh
  have hone : (1 : ℚ) ≤ n := by exact_mod_cast hn
  have hsmall : (2 : ℚ) ^ (-1074 : Int) ≤ 1 := zpow_le_one_of_nonpos₀ one_le_two (by decide)
  generalize (2 : ℚ) ^ (-1074 : Int) = least at hhigh hsmall
  push_cast at hhigh
  linarith

/-- An integer of 64 bits is no number too large. -/
theorem ofNat_exists {n : Nat} (hn : n < 2 ^ 64) (negative : Bool) :
    ∃ x, ofNat negative n = some x := by
  rw [← Option.ne_none_iff_exists', ofNat, Ne, ofRatio_eq_none_iff n Nat.one_pos, not_le,
    Nat.cast_one, div_one]
  calc (n : ℚ) < 2 ^ (64 : Int) := by exact_mod_cast hn
    _ ≤ 2 ^ (1023 : Int) := zpow_le_zpow_right₀ one_le_two (by decide)
    _ ≤ overflow := two_pow_le_overflow

end QueryDoc.Binary64
