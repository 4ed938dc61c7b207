import QueryDoc.Proofs.Decimal.Rounding

/-! The range of numbers. A value is too large just where it is at least half a place above the
largest number: half-way cases go to the even significand, which is the next power of two and
has no room. Decimals whose powers of ten are not computed are far on one side of this. -/
namespace QueryDoc.Binary64

/-- The largest number and half a place more. -/
def overflow : ℚ := (2 ^ 53 - 1 / 2) * 2 ^ (971 : Int)

theorem two_pow_le_overflow : (2 : ℚ) ^ (1023 : Int) ≤ overflow := by
  calc (2 : ℚ) ^ (1023 : Int) = 2 ^ 52 * 2 ^ (971 : Int) := by
        rw [show (1023 : Int) = 52 + 971 by norm_num, zpow_add₀ two_ne_zero]
        norm_num
    _ ≤ overflow := by
        unfold overflow
        gcongr
        norm_num

theorem overflow_le_two_pow : overflow ≤ (2 : ℚ) ^ (1024 : Int) := by
  calc overflow ≤ 2 ^ 53 * 2 ^ (971 : Int) := by
        unfold overflow
        gcongr
        norm_num
    _ = 2 ^ (1024 : Int) := by
        rw [show (1024 : Int) = 53 + 971 by norm_num, zpow_add₀ two_ne_zero]
        norm_num

theorem overflow_pos : 0 < overflow := (zpow_pos two_pos _).trans_le two_pow_le_overflow

/-! ## Fractions -/

section
variable {num den m : Nat} {e : Int}

/-- A significand that takes a place too high is that of a value too large. -/
theorem overflow_le_of_place (hnum : 0 < num) (hden : 0 < den)
    (he : max (floorLog2 num den - 52) (-1074) = e) (hm : Nearest m (num / den / 2 ^ e))
    (hhigh : 971 < if m = 2 ^ 53 then e + 1 else e) : overflow ≤ num / den := by
  have hplace : (0 : ℚ) < 2 ^ e := zpow_pos two_pos _
  -- A carry needs the half place below the power of two; without one the place itself is too high.
  by_cases hcarry : m = 2 ^ 53
  · rw [if_pos hcarry] at hhigh
    have hlow := hm.low
    rw [hcarry, le_div_iff₀ hplace] at hlow
    push_cast at hlow
    calc overflow ≤ (2 ^ 53 - 1 / 2) * 2 ^ e := by
          unfold overflow
          gcongr
          · norm_num
          · omega
      _ ≤ num / den := hlow
  · rw [if_neg hcarry] at hhigh
    have hfull := (place_spec hnum hden he).2.resolve_right (by omega)
    rw [le_div_iff₀ hplace] at hfull
    calc overflow ≤ 2 ^ (1024 : Int) := overflow_le_two_pow
      _ ≤ 2 ^ ((52 : Int) + e) := zpow_le_zpow_right₀ one_le_two (by omega)
      _ = (2 ^ 52 : Nat) * 2 ^ e := by
        rw [zpow_add₀ two_ne_zero]
        norm_num
      _ ≤ num / den := hfull

/-- The significand of a value too large takes a place too high, if only by its carry. -/
theorem place_of_overflow_le (hnum : 0 < num) (hden : 0 < den)
    (he : max (floorLog2 num den - 52) (-1074) = e) (hm : Nearest m (num / den / 2 ^ e))
    (hlarge : overflow ≤ num / den) : 971 < if m = 2 ^ 53 then e + 1 else e := by
  have hfloor : 1023 ≤ floorLog2 num den :=
    le_floorLog2 hnum hden (two_pow_le_overflow.trans hlarge)
  by_cases hcarry : m = 2 ^ 53
  · rw [if_pos hcarry]
    omega
  · rw [if_neg hcarry]
    by_contra hlast
    -- At the last place the value is at least half way to the power of two, which is even.
    obtain rfl : e = 971 := by omega
    have hplace : (0 : ℚ) < 2 ^ (971 : Int) := zpow_pos two_pos _
    have hhalf : (2 : ℚ) ^ 53 - 1 / 2 ≤ num / den / 2 ^ (971 : Int) := by
      rw [le_div_iff₀ hplace]
      exact hlarge
    have hm_le : m ≤ 2 ^ 53 := hm.le_of_lt (place_spec hnum hden he).1
    have hm_lt : m + 1 ≤ 2 ^ 53 := lt_of_le_of_ne hm_le hcarry
    have hm_lt' : (m : ℚ) + 1 ≤ 2 ^ 53 := by exact_mod_cast hm_lt
    have htie : (num / den / 2 ^ (971 : Int) : ℚ) = m + 1 / 2 := by
      have := hm.high
      linarith
    have heven := hm.even (.inr htie)
    have hm_eq : (m : ℚ) + 1 = 2 ^ 53 := by linarith
    have hm_eq' : m + 1 = 2 ^ 53 := by exact_mod_cast hm_eq
    omega

end

theorem ofRatio_eq_none_iff (num : Nat) {den : Nat} (hden : 0 < den) (negative : Bool) :
    ofRatio negative num den = none ↔ overflow ≤ num / den := by
  rcases Nat.eq_zero_or_pos num with rfl | hnum
  · have hzero : ofRatio negative 0 den ≠ none := by simp [ofRatio]
    rw [Nat.cast_zero, zero_div]
    exact iff_of_false hzero (not_le.mpr overflow_pos)
  · obtain ⟨e, he⟩ : ∃ e, max (floorLog2 num den - 52) (-1074) = e := ⟨_, rfl⟩
    obtain ⟨m, hm⟩ := exists_nearest num hden e
    have hplace : ofRatio negative num den = none ↔ 971 < if m = 2 ^ 53 then e + 1 else e := by
      rw [ofRatio_of_nearest hnum.ne' hden he hm negative]
      have hnone : ∀ (p : Nat × Int),
          (if 971 < p.2 then none else some (⟨negative, p.1, p.2⟩ : Binary64)) = none ↔
            971 < p.2 := by
        intro p
        by_cases h : 971 < p.2 <;> simp [h]
      rw [hnone, apply_ite Prod.snd]
    rw [hplace]
    exact ⟨overflow_le_of_place hnum hden he hm, place_of_overflow_le hnum hden he hm⟩

/-! ## Decimals -/

theorem ofDecimal_eq_none_iff (digits : Nat) (exponent : Int) (negative : Bool) :
    ofDecimal negative digits exponent = none ↔ overflow ≤ digits * 10 ^ exponent := by
  have hten : (1 : ℚ) ≤ 10 := by norm_num
  unfold ofDecimal
  dsimp only
  by_cases hzero : digits = 0
  · rw [if_pos (.inl hzero), hzero, Nat.cast_zero, zero_mul]
    exact iff_of_false (by simp) (not_le.mpr overflow_pos)
  obtain ⟨hcount_le, hcount_lt⟩ := digitCount_spec (Nat.pos_of_ne_zero hzero)
  have hpower : (0 : ℚ) < 10 ^ exponent := zpow_pos (by norm_num) _
  -- Both guards answer without a power of ten, far below the range and far above it.
  by_cases htiny : (digitCount digits : Int) + exponent < -330
  · rw [if_pos (.inr htiny)]
    refine iff_of_false (by simp) (not_le.mpr ?_)
    calc (digits * 10 ^ exponent : ℚ)
        ≤ 10 ^ (digitCount digits : Int) * 10 ^ exponent := by gcongr
      _ = 10 ^ ((digitCount digits : Int) + exponent) := (zpow_add₀ (by norm_num) _ _).symm
      _ ≤ 1 := zpow_le_one_of_nonpos₀ hten (by omega)
      _ < 2 ^ (1023 : Int) := one_lt_zpow₀ one_lt_two (by norm_num)
      _ ≤ overflow := two_pow_le_overflow
  rw [if_neg (not_or.mpr ⟨hzero, htiny⟩)]
  by_cases hhuge : 330 < (digitCount digits : Int) + exponent
  · rw [if_pos hhuge]
    refine iff_of_true rfl ?_
    calc overflow ≤ 2 ^ (1024 : Int) := overflow_le_two_pow
      _ ≤ 2 ^ (1075 : Int) := zpow_le_zpow_right₀ one_le_two (by norm_num)
      _ ≤ 10 ^ (325 : Int) := two_pow_le_ten_pow
      _ ≤ 10 ^ ((digitCount digits : Int) - 1 + exponent) :=
        zpow_le_zpow_right₀ hten (by omega)
      _ = 10 ^ ((digitCount digits : Int) - 1) * 10 ^ exponent := zpow_add₀ (by norm_num) _ _
      _ ≤ digits * 10 ^ exponent := by gcongr
  · rw [if_neg hhuge]
    obtain ⟨hden, hvalue⟩ :=
      divPow_spec (show 0 < 10 by decide) digits Nat.one_pos (-exponent)
    rw [ofRatio_eq_none_iff _ hden, hvalue, zpow_neg, div_inv_eq_mul, Nat.cast_one, div_one,
      Nat.cast_ofNat]

end QueryDoc.Binary64
