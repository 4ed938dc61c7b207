import Mathlib.Algebra.Order.Field.Power
import Mathlib.Algebra.Order.Ring.Rat
import Mathlib.Tactic.FieldSimp
import Mathlib.Tactic.Linarith
import Mathlib.Tactic.Positivity
import Mathlib.Tactic.Ring
import QueryDoc.Decimal.Shortest

/-! Rounding to the nearest number. Every fraction in the interval of a number is rounded to
that number: the interval reaches half a place up and down, and only a quarter down from a
power of two, below which the numbers lie closer together. -/
namespace QueryDoc

namespace Binary64

/-! ## Fractions -/

/-- `divPow` divides by a power. -/
theorem divPow_spec {base den : Nat} (hbase : 0 < base) (num : Nat) (hden : 0 < den) (k : Int) :
    0 < (divPow base num den k).2 ∧
      ((divPow base num den k).1 : ℚ) / (divPow base num den k).2 =
        num / den / (base : ℚ) ^ k := by
  have hbase' : (base : ℚ) ≠ 0 := by exact_mod_cast hbase.ne'
  have hden' : (den : ℚ) ≠ 0 := by exact_mod_cast hden.ne'
  unfold divPow
  by_cases hk : 0 ≤ k
  · obtain ⟨n, rfl⟩ := Int.eq_ofNat_of_zero_le hk
    rw [if_pos hk]
    refine ⟨Nat.mul_pos hden (Nat.pow_pos hbase), ?_⟩
    simp only [Int.toNat_natCast, Nat.pow_eq, Nat.cast_mul, Nat.cast_pow, zpow_natCast]
    rw [div_div]
  · obtain ⟨n, hn⟩ := Int.eq_ofNat_of_zero_le (show 0 ≤ -k by omega)
    obtain rfl : k = -(n : Int) := by omega
    rw [if_neg hk]
    refine ⟨hden, ?_⟩
    simp only [neg_neg, Int.toNat_natCast, Nat.pow_eq, Nat.cast_mul, Nat.cast_pow, zpow_neg,
      zpow_natCast]
    field_simp

/-- The power of a base that a fraction reaches, from those that its parts reach. -/
theorem floorLog_spec {base num den : Nat} (hbase : 1 < base) (hden : 0 < den) {a b : Int}
    (hnum_le : (base : ℚ) ^ a ≤ num) (hnum_lt : (num : ℚ) < base ^ (a + 1))
    (hden_le : (base : ℚ) ^ b ≤ den) (hden_lt : (den : ℚ) < base ^ (b + 1)) {e : Int}
    (he : e = if (divPow base num den (a - b)).2 ≤ (divPow base num den (a - b)).1 then a - b
      else a - b - 1) :
    (base : ℚ) ^ e ≤ num / den ∧ (num / den : ℚ) < base ^ (e + 1) := by
  have hbase0 : (0 : ℚ) < base := by exact_mod_cast Nat.zero_lt_of_lt hbase
  have hden' : (0 : ℚ) < den := by exact_mod_cast hden
  obtain ⟨hpos, hvalue⟩ := divPow_spec (Nat.zero_lt_of_lt hbase) num hden (a - b)
  have hpos' : (0 : ℚ) < (divPow base num den (a - b)).2 := by exact_mod_cast hpos
  have hpower : (0 : ℚ) < (base : ℚ) ^ (a - b) := zpow_pos hbase0 _
  -- The comparison tells whether the fraction reaches the power.
  have hreaches : (divPow base num den (a - b)).2 ≤ (divPow base num den (a - b)).1 ↔
      (base : ℚ) ^ (a - b) ≤ num / den := by
    rw [← Nat.cast_le (α := ℚ), ← one_le_div hpos', hvalue, one_le_div hpower]
  by_cases hcase : (divPow base num den (a - b)).2 ≤ (divPow base num den (a - b)).1
  · rw [if_pos hcase] at he
    subst he
    refine ⟨hreaches.mp hcase, ?_⟩
    rw [div_lt_iff₀ hden']
    calc (num : ℚ) < base ^ (a + 1) := hnum_lt
      _ = base ^ (a - b + 1) * base ^ b := by rw [← zpow_add₀ hbase0.ne']; congr 1; ring
      _ ≤ base ^ (a - b + 1) * den := by gcongr
  · rw [if_neg hcase] at he
    subst he
    rw [sub_add_cancel]
    refine ⟨?_, not_le.mp (mt hreaches.mpr hcase)⟩
    rw [le_div_iff₀ hden']
    calc (base : ℚ) ^ (a - b - 1) * den ≤ base ^ (a - b - 1) * base ^ (b + 1) := by gcongr
      _ = base ^ a := by rw [← zpow_add₀ hbase0.ne']; congr 1; ring
      _ ≤ num := hnum_le

theorem floorLog2_spec {num den : Nat} (hnum : 0 < num) (hden : 0 < den) :
    (2 : ℚ) ^ floorLog2 num den ≤ num / den ∧
      (num / den : ℚ) < 2 ^ (floorLog2 num den + 1) := by
  have hlog : ∀ n : Nat, 0 < n →
      ((2 : Nat) : ℚ) ^ (n.log2 : Int) ≤ n ∧ (n : ℚ) < ((2 : Nat) : ℚ) ^ ((n.log2 : Int) + 1) := by
    intro n hn
    constructor
    · exact_mod_cast Nat.log2_self_le hn.ne'
    · exact_mod_cast Nat.lt_log2_self
  have hspec := floorLog_spec (by decide) hden (hlog num hnum).1 (hlog num hnum).2
    (hlog den hden).1 (hlog den hden).2 (e := floorLog2 num den) rfl
  simpa only [Nat.cast_ofNat] using hspec

theorem floorLog2_lt {num den : Nat} (hnum : 0 < num) (hden : 0 < den) {k : Int}
    (h : (num / den : ℚ) < 2 ^ k) : floorLog2 num den < k :=
  (zpow_lt_zpow_iff_right₀ one_lt_two).mp ((floorLog2_spec hnum hden).1.trans_lt h)

theorem le_floorLog2 {num den : Nat} (hnum : 0 < num) (hden : 0 < den) {k : Int}
    (h : (2 : ℚ) ^ k ≤ num / den) : k ≤ floorLog2 num den :=
  Int.lt_add_one_iff.mp
    ((zpow_lt_zpow_iff_right₀ one_lt_two).mp (h.trans_lt (floorLog2_spec hnum hden).2))

/-! ## Nearest integers -/

/-- The integer is the one nearest to a value, or the even one of the two nearest. -/
structure Nearest (m : Nat) (v : ℚ) : Prop where
  low : m - 1 / 2 ≤ v
  high : v ≤ m + 1 / 2
  even : v = m - 1 / 2 ∨ v = m + 1 / 2 → m % 2 = 0

theorem Nearest.unique {m n : Nat} {v : ℚ} (hm : Nearest m v) (hn : Nearest n v) : m = n := by
  wlog hlt : m < n generalizing m n
  · rcases Nat.lt_trichotomy m n with h | h | h
    · exact absurd h hlt
    · exact h
    · exact (this hn hm h).symm
  have hle : (m : ℚ) + 1 ≤ n := by exact_mod_cast hlt
  have hlow := hn.low
  have hhigh := hm.high
  -- The value is half way between two neighbours, of which only one is even.
  have hnext : n = m + 1 := by
    have : (n : ℚ) ≤ m + 1 := by linarith
    exact Nat.le_antisymm (by exact_mod_cast this) hlt
  subst hnext
  push_cast at hlow
  have hm_even := hm.even (.inr (by linarith))
  have hn_even := hn.even (.inl (by push_cast; linarith))
  omega

theorem div_lt_half {r den : Nat} (hden : 0 < den) : (r / den : ℚ) < 1 / 2 ↔ 2 * r < den := by
  have hden' : (0 : ℚ) < den := by exact_mod_cast hden
  rw [div_lt_div_iff₀ hden' two_pos, one_mul, mul_comm]
  exact_mod_cast Iff.rfl

theorem div_eq_half {r den : Nat} (hden : 0 < den) : (r / den : ℚ) = 1 / 2 ↔ 2 * r = den := by
  have hden' : (den : ℚ) ≠ 0 := by exact_mod_cast hden.ne'
  rw [div_eq_div_iff hden' two_ne_zero, one_mul, mul_comm]
  exact_mod_cast Iff.rfl

theorem roundDiv_nearest (num : Nat) {den : Nat} (hden : 0 < den) :
    Nearest (roundDiv num den) (num / den) := by
  obtain ⟨q, r, hnum, hr⟩ : ∃ q r, num = den * q + r ∧ r < den :=
    ⟨num / den, num % den, (Nat.div_add_mod num den).symm, Nat.mod_lt num hden⟩
  have hdiv : num / den = q := by
    rw [hnum, Nat.mul_add_div hden, Nat.div_eq_of_lt hr, Nat.add_zero]
  have hmod : num % den = r := by rw [hnum, Nat.mul_add_mod, Nat.mod_eq_of_lt hr]
  have hden' : (0 : ℚ) < den := by exact_mod_cast hden
  have hvalue : (num / den : ℚ) = q + r / den := by
    rw [hnum]
    push_cast
    field_simp
  have hrest : (0 : ℚ) ≤ r / den := by positivity
  have hless : (r / den : ℚ) < 1 := by
    rw [div_lt_one hden']
    exact_mod_cast hr
  unfold roundDiv
  simp only [hdiv, hmod]
  rw [hvalue]
  -- Down to the quotient below half a place, and half way if the quotient is even.
  by_cases hdown : 2 * r < den ∨ 2 * r = den ∧ q % 2 = 0
  · rw [if_pos hdown]
    rw [← div_lt_half hden, ← div_eq_half hden] at hdown
    refine ⟨by linarith, ?_, ?_⟩
    · rcases hdown with h | ⟨h, -⟩ <;> linarith
    · rintro (h | h)
      · linarith
      · rcases hdown with hlt | ⟨-, heven⟩
        · linarith
        · exact heven
  · rw [if_neg hdown]
    rw [← div_lt_half hden, ← div_eq_half hden, not_or, not_lt, not_and] at hdown
    obtain ⟨hge, hodd⟩ := hdown
    refine ⟨by push_cast; linarith, by push_cast; linarith, ?_⟩
    push_cast
    rintro (h | h)
    · have := hodd (by linarith)
      omega
    · linarith

/-! ## The interval of a number -/

/-- The value of a number without its sign. -/
def magnitude (x : Binary64) : ℚ := x.significand * 2 ^ x.exponent

/-- The one way in which a finite number is held: with as many digits as there is room for. -/
structure Canonical (x : Binary64) : Prop where
  bounded : x.significand < 2 ^ 53
  low : -1074 ≤ x.exponent
  high : x.exponent ≤ 971
  full : 2 ^ 52 ≤ x.significand ∨ x.exponent = -1074

/-- A value lies in the interval of a number, whose ends belong to it where the significand is
even. -/
def Near (x : Binary64) (v : ℚ) : Prop :=
  let low := (Decimal.interval x).1 * (2 : ℚ) ^ (x.exponent - 2)
  let high := (Decimal.interval x).2 * (2 : ℚ) ^ (x.exponent - 2)
  if x.significand % 2 = 0 then low ≤ v ∧ v ≤ high else low < v ∧ v < high

/-- How far the interval of a number reaches down, in places of the number. -/
def down (x : Binary64) : ℚ :=
  if x.significand = 2 ^ 52 ∧ -1074 < x.exponent then 1 / 4 else 1 / 2

section Near
variable {x : Binary64} {v : ℚ}

theorem down_cases (x : Binary64) :
    x.down = 1 / 4 ∧ x.significand = 2 ^ 52 ∧ -1074 < x.exponent ∨
      x.down = 1 / 2 ∧ ¬ (x.significand = 2 ^ 52 ∧ -1074 < x.exponent) := by
  unfold down
  by_cases h : x.significand = 2 ^ 52 ∧ -1074 < x.exponent
  · exact .inl ⟨if_pos h, h⟩
  · exact .inr ⟨if_neg h, h⟩

theorem down_le (x : Binary64) : x.down ≤ 1 / 2 := by
  rcases x.down_cases with ⟨h, -⟩ | ⟨h, -⟩
  · rw [h]
    norm_num
  · rw [h]

theorem near_iff (hpos : 0 < x.significand) :
    x.Near v ↔
      if x.significand % 2 = 0 then
        x.significand - x.down ≤ v / 2 ^ x.exponent ∧ v / 2 ^ x.exponent ≤ x.significand + 1 / 2
      else
        x.significand - x.down < v / 2 ^ x.exponent ∧
          v / 2 ^ x.exponent < x.significand + 1 / 2 := by
  have hplace : (0 : ℚ) < 2 ^ x.exponent := zpow_pos two_pos _
  have hquarter : (2 : ℚ) ^ (x.exponent - 2) = 2 ^ x.exponent / 4 := by
    rw [zpow_sub₀ two_ne_zero]
    norm_num
  -- The ends of the interval are held in quarters of a place.
  have hlow : ((Decimal.interval x).1 : ℚ) * 2 ^ (x.exponent - 2) =
      (x.significand - x.down) * 2 ^ x.exponent := by
    have hfour : (1 : ℚ) ≤ x.significand := by exact_mod_cast hpos
    have hinterval : ((Decimal.interval x).1 : ℚ) = 4 * (x.significand - x.down) := by
      unfold Decimal.interval down
      have hcloser : (x.significand = Nat.pow 2 (precision - 1) ∧ minExponent < x.exponent) ↔
          x.significand = 2 ^ 52 ∧ -1074 < x.exponent := Iff.rfl
      simp only [hcloser]
      by_cases h : x.significand = 2 ^ 52 ∧ -1074 < x.exponent
      · rw [if_pos h, if_pos h, Nat.cast_sub (by omega)]
        push_cast
        ring
      · rw [if_neg h, if_neg h, Nat.cast_sub (by omega)]
        push_cast
        ring
    rw [hinterval, hquarter]
    ring
  have hhigh : ((Decimal.interval x).2 : ℚ) * 2 ^ (x.exponent - 2) =
      (x.significand + 1 / 2) * 2 ^ x.exponent := by
    have hinterval : ((Decimal.interval x).2 : ℚ) = 4 * x.significand + 2 := by
      unfold Decimal.interval
      push_cast
      ring
    rw [hinterval, hquarter]
    ring
  unfold Near
  simp only [hlow, hhigh, le_div_iff₀ hplace, div_le_iff₀ hplace, lt_div_iff₀ hplace,
    div_lt_iff₀ hplace]

/-- The bounds of the interval, ends included, in places of the number. -/
theorem Near.bounds (h : x.Near v) (hpos : 0 < x.significand) :
    x.significand - x.down ≤ v / 2 ^ x.exponent ∧
      v / 2 ^ x.exponent ≤ x.significand + 1 / 2 := by
  rw [near_iff hpos] at h
  split at h
  · exact h
  · exact ⟨h.1.le, h.2.le⟩

/-- In places of the number, its significand is the integer nearest to any value in its
interval. -/
theorem Near.nearest (h : x.Near v) (hpos : 0 < x.significand) :
    Nearest x.significand (v / 2 ^ x.exponent) := by
  have hdown := x.down_le
  obtain ⟨hlow, hhigh⟩ := h.bounds hpos
  refine ⟨by linarith, hhigh, fun htie => ?_⟩
  by_contra hodd
  rw [near_iff hpos, if_neg hodd] at h
  rcases htie with htie | htie <;> linarith

end Near

/-! ## Rounding -/

theorem exists_nearest (num : Nat) {den : Nat} (hden : 0 < den) (e : Int) :
    ∃ m, Nearest m (num / den / 2 ^ e) := by
  obtain ⟨hpos, hvalue⟩ := divPow_spec two_pos num hden e
  rw [Nat.cast_ofNat] at hvalue
  exact ⟨_, hvalue ▸ roundDiv_nearest (divPow 2 num den e).1 hpos⟩

theorem ofRatio_of_nearest {num den m : Nat} {e : Int} (hnum : num ≠ 0) (hden : 0 < den)
    (he : max (floorLog2 num den - 52) (-1074) = e) (hm : Nearest m (num / den / 2 ^ e))
    (negative : Bool) :
    ofRatio negative num den =
      let (m, e) := if m = 2 ^ 53 then (2 ^ 52, e + 1) else (m, e)
      if 971 < e then none else some ⟨negative, m, e⟩ := by
  obtain ⟨hpos, hvalue⟩ := divPow_spec two_pos num hden e
  rw [Nat.cast_ofNat] at hvalue
  have hround : roundDiv (divPow 2 num den e).1 (divPow 2 num den e).2 = m := by
    have hnearest := roundDiv_nearest (divPow 2 num den e).1 hpos
    rw [hvalue] at hnearest
    exact hnearest.unique hm
  have hexponent : max (floorLog2 num den - (precision - 1 : Int)) minExponent = e := he
  unfold ofRatio
  rw [if_neg hnum]
  simp only [hexponent, hround]
  rfl

/-- Less than a quarter of a place below a power of two, a fraction is rounded up to it: there
the place to round at is the next lower one. -/
theorem ofRatio_of_below {num den : Nat} (hnum : 0 < num) (hden : 0 < den) {e : Int}
    (hmin : -1074 < e) (hmax : e ≤ 971) (hlow : ((2 : ℚ) ^ 52 - 1 / 4) * 2 ^ e ≤ num / den)
    (hless : (num / den : ℚ) < 2 ^ 52 * 2 ^ e) (negative : Bool) :
    ofRatio negative num den = some ⟨negative, 2 ^ 52, e⟩ := by
  have hplace : (0 : ℚ) < 2 ^ (e - 1) := zpow_pos two_pos _
  have hhalf : (2 : ℚ) ^ e = 2 * 2 ^ (e - 1) := by
    rw [← zpow_one_add₀ two_ne_zero, add_sub_cancel]
  have hbelow : floorLog2 num den < 52 + e := by
    refine floorLog2_lt hnum hden (hless.trans_eq ?_)
    rw [zpow_add₀ two_ne_zero]
    norm_num
  have hreaches : 51 + e ≤ floorLog2 num den := by
    refine le_floorLog2 hnum hden (le_trans ?_ hlow)
    rw [zpow_add₀ two_ne_zero]
    gcongr
    norm_num
  have he : max (floorLog2 num den - 52) (-1074) = e - 1 := by omega
  have hnearest : Nearest (2 ^ 53) (num / den / 2 ^ (e - 1)) := by
    rw [hhalf] at hlow hless
    refine ⟨?_, ?_, fun _ => by norm_num⟩
    · rw [le_div_iff₀ hplace]
      push_cast
      linarith
    · rw [div_le_iff₀ hplace]
      push_cast
      linarith
  rw [ofRatio_of_nearest hnum.ne' hden he hnearest negative, if_pos rfl]
  show (if 971 < e - 1 + 1 then none else some _) = _
  rw [sub_add_cancel, if_neg (not_lt.mpr hmax)]

/-- A fraction in the interval of a number is rounded to it. -/
theorem ofRatio_of_near {x : Binary64} (hx : x.Canonical) (hpos : 0 < x.significand)
    {num den : Nat} (hden : 0 < den) (h : x.Near (num / den)) (negative : Bool) :
    ofRatio negative num den = some ⟨negative, x.significand, x.exponent⟩ := by
  obtain ⟨hlow, hhigh⟩ := h.bounds hpos
  have hplace : (0 : ℚ) < 2 ^ x.exponent := zpow_pos two_pos _
  have hnum : 0 < num := by
    have hone : (1 : ℚ) ≤ x.significand := by exact_mod_cast hpos
    have hquotient : (0 : ℚ) < num / den / 2 ^ x.exponent := by linarith [x.down_le]
    have hvalue : (0 : ℚ) < num / den := (div_pos_iff_of_pos_right hplace).mp hquotient
    have hden' : (0 : ℚ) < den := by exact_mod_cast hden
    exact_mod_cast (div_pos_iff_of_pos_right hden').mp hvalue
  have hsplit (k : Nat) : (2 : ℚ) ^ (k + x.exponent) = 2 ^ k * 2 ^ x.exponent := by
    rw [zpow_add₀ two_ne_zero, zpow_natCast]
  rw [div_le_iff₀ hplace] at hhigh
  rw [le_div_iff₀ hplace] at hlow
  have hbelow : floorLog2 num den < 53 + x.exponent := by
    have hbounded : (x.significand : ℚ) + 1 ≤ 2 ^ 53 := by exact_mod_cast hx.bounded
    refine floorLog2_lt hnum hden ?_
    calc (num / den : ℚ) ≤ (x.significand + 1 / 2) * 2 ^ x.exponent := hhigh
      _ < 2 ^ 53 * 2 ^ x.exponent := by gcongr; linarith
      _ = 2 ^ (53 + x.exponent) := (hsplit 53).symm
  by_cases hnormal : x.exponent = -1074 ∨ (2 : ℚ) ^ (52 + x.exponent) ≤ num / den
  · -- The place of the number is the place to round at.
    have he : max (floorLog2 num den - 52) (-1074) = x.exponent := by
      rcases hnormal with hmin | hreaches
      · omega
      · have := le_floorLog2 hnum hden hreaches
        have := hx.low
        omega
    rw [ofRatio_of_nearest hnum.ne' hden he (h.nearest hpos) negative, if_neg hx.bounded.ne]
    exact if_neg (not_lt.mpr hx.high)
  · -- The value lies below a power of two, which the number is then.
    rw [not_or, not_le] at hnormal
    obtain ⟨hmin, hless'⟩ := hnormal
    have hless := hless'.trans_eq (hsplit 52)
    have hpower : x.significand = 2 ^ 52 := by
      refine le_antisymm ?_ (hx.full.resolve_right hmin)
      have hdown : x.significand - x.down < (2 : ℚ) ^ 52 :=
        lt_of_mul_lt_mul_right (hlow.trans_lt hless) hplace.le
      have hlt : (x.significand : ℚ) < 2 ^ 52 + 1 := by linarith [x.down_le]
      exact Nat.lt_succ_iff.mp (by exact_mod_cast hlt)
    have hmin' : -1074 < x.exponent := lt_of_le_of_ne hx.low (Ne.symm hmin)
    have hdown : x.down = 1 / 4 := if_pos ⟨hpower, hmin'⟩
    rw [hdown, hpower] at hlow
    push_cast at hlow
    rw [hpower]
    exact ofRatio_of_below hnum hden hmin' hx.high hlow hless negative

/-- A number whose significand is the nearest integer has the value in its interval, if the
value is no more than a quarter of a place below a power of two. -/
theorem Nearest.near {x : Binary64} {v : ℚ} (h : Nearest x.significand (v / 2 ^ x.exponent))
    (hpos : 0 < x.significand)
    (hpower : x.significand = 2 ^ 52 → -1074 < x.exponent →
      (2 : ℚ) ^ 52 - 1 / 4 ≤ v / 2 ^ x.exponent) : x.Near v := by
  rw [near_iff hpos]
  rcases x.down_cases with ⟨hdown, hsignificand, hexponent⟩ | ⟨hdown, -⟩
  · have hlow := hpower hsignificand hexponent
    rw [if_pos (by rw [hsignificand]; decide), hdown]
    refine ⟨?_, h.high⟩
    rw [hsignificand]
    exact_mod_cast hlow
  · rw [hdown]
    split
    · exact ⟨h.low, h.high⟩
    · next hodd =>
      have htie := mt h.even hodd
      rw [not_or] at htie
      exact ⟨lt_of_le_of_ne h.low (Ne.symm htie.1), lt_of_le_of_ne h.high htie.2⟩

theorem Nearest.le_of_lt {m n : Nat} {v : ℚ} (h : Nearest m v) (hv : v < n) : m ≤ n := by
  have hlow := h.low
  have hlt : (m : ℚ) < (n + 1 : Nat) := by
    push_cast
    linarith
  exact Nat.lt_succ_iff.mp (by exact_mod_cast hlt)

theorem Nearest.ge_of_ge {m n : Nat} {v : ℚ} (h : Nearest m v) (hv : n ≤ v) : n ≤ m := by
  have hhigh := h.high
  have hlt : (n : ℚ) < (m + 1 : Nat) := by
    push_cast
    linarith
  exact Nat.lt_succ_iff.mp (by exact_mod_cast hlt)

/-- The place to round at is chosen so that the quotient has no more digits than there is room
for, and just as many unless it is the least place. -/
theorem place_spec {num den : Nat} (hnum : 0 < num) (hden : 0 < den) {e : Int}
    (he : max (floorLog2 num den - 52) (-1074) = e) :
    (num / den / 2 ^ e : ℚ) < (2 ^ 53 : Nat) ∧
      (((2 ^ 52 : Nat) : ℚ) ≤ num / den / 2 ^ e ∨ e = -1074) := by
  obtain ⟨hfloor, hceil⟩ := floorLog2_spec hnum hden
  have hplace : (0 : ℚ) < 2 ^ e := zpow_pos two_pos _
  constructor
  · rw [div_lt_iff₀ hplace]
    calc (num / den : ℚ) < 2 ^ (floorLog2 num den + 1) := hceil
      _ ≤ 2 ^ ((53 : Int) + e) := zpow_le_zpow_right₀ one_le_two (by omega)
      _ = (2 ^ 53 : Nat) * 2 ^ e := by
        rw [zpow_add₀ two_ne_zero]
        norm_num
  · by_cases hmin : e = -1074
    · exact .inr hmin
    · refine .inl ?_
      rw [le_div_iff₀ hplace]
      calc ((2 ^ 52 : Nat) : ℚ) * 2 ^ e = 2 ^ ((52 : Int) + e) := by
            rw [zpow_add₀ two_ne_zero]
            norm_num
        _ ≤ 2 ^ floorLog2 num den := zpow_le_zpow_right₀ one_le_two (by omega)
        _ ≤ num / den := hfloor

/-- A number that a fraction is rounded to is held in its one form, it has the sign, its
significand is the nearest integer, and the fraction lies in its interval. -/
theorem ofRatio_spec {num den : Nat} (hnum : 0 < num) (hden : 0 < den) {negative : Bool}
    {x : Binary64} (h : ofRatio negative num den = some x) :
    x.Canonical ∧ x.negative = negative ∧
      Nearest x.significand (num / den / 2 ^ x.exponent) ∧
      (0 < x.significand → x.Near (num / den)) := by
  obtain ⟨e, he⟩ : ∃ e, max (floorLog2 num den - 52) (-1074) = e := ⟨_, rfl⟩
  obtain ⟨m, hm⟩ := exists_nearest num hden e
  obtain ⟨hless, hfull⟩ := place_spec hnum hden he
  have hmin : -1074 ≤ e := by omega
  rw [ofRatio_of_nearest hnum.ne' hden he hm negative] at h
  by_cases hcarry : m = 2 ^ 53
  · -- The quotient is rounded up to a power of two, which takes the next place.
    rw [if_pos hcarry, Option.ite_none_left_eq_some] at h
    obtain ⟨hhigh, hx⟩ := h
    cases hx
    have hhalf : (num / den / 2 ^ (e + 1) : ℚ) = num / den / 2 ^ e / 2 := by
      rw [zpow_add_one₀ two_ne_zero, div_mul_eq_div_div]
    have hlow := hm.low
    rw [hcarry] at hlow
    push_cast at hlow hless
    have hnearest : Nearest (2 ^ 52) (num / den / 2 ^ (e + 1)) := by
      rw [hhalf]
      exact ⟨by push_cast; linarith, by push_cast; linarith, fun _ => by norm_num⟩
    refine ⟨⟨by norm_num, ?_, not_lt.mp hhigh, .inl le_rfl⟩, rfl, hnearest, fun hpos => ?_⟩
    · show -1074 ≤ e + 1
      omega
    · refine hnearest.near hpos fun _ _ => ?_
      show _ ≤ (num / den / 2 ^ (e + 1) : ℚ)
      rw [hhalf]
      linarith
  · rw [if_neg hcarry, Option.ite_none_left_eq_some] at h
    obtain ⟨hhigh, hx⟩ := h
    cases hx
    have hbounded : m < 2 ^ 53 := lt_of_le_of_ne (hm.le_of_lt hless) hcarry
    have hfull' : 2 ^ 52 ≤ m ∨ e = -1074 := hfull.imp_left hm.ge_of_ge
    refine ⟨⟨hbounded, hmin, not_lt.mp hhigh, hfull'⟩, rfl, hm, fun hpos => ?_⟩
    refine hm.near hpos fun _ hexponent => ?_
    have hreaches := hfull.resolve_right (ne_of_gt hexponent)
    push_cast at hreaches
    show _ ≤ (num / den / 2 ^ e : ℚ)
    linarith

/-! ## Decimals -/

/-- A positive integer by the number of its digits. -/
theorem digitCount_spec {n : Nat} (hn : 0 < n) :
    (10 : ℚ) ^ ((digitCount n : Int) - 1) ≤ n ∧ (n : ℚ) < 10 ^ (digitCount n : Int) := by
  have hlength : ∀ k, 0 < k → (digitCount n ≤ k ↔ n < 10 ^ k) := fun k hk =>
    Nat.length_toDigits_le_iff (by decide) hk
  have hpos : 0 < digitCount n := Nat.length_toDigits_pos
  constructor
  · obtain ⟨k, hk⟩ := Nat.exists_eq_succ_of_ne_zero hpos.ne'
    rw [hk, Nat.cast_succ, add_sub_cancel_right]
    rcases Nat.eq_zero_or_pos k with rfl | hk0
    · exact_mod_cast hn
    · have hle : 10 ^ k ≤ n := not_lt.mp (mt (hlength k hk0).mpr (by omega))
      exact_mod_cast hle
  · exact_mod_cast (hlength _ hpos).mp le_rfl

theorem floorLog10_spec {num den : Nat} (hnum : 0 < num) (hden : 0 < den) :
    (10 : ℚ) ^ Decimal.floorLog10 num den ≤ num / den := by
  have hcount : ∀ n : Nat, 0 < n → ((10 : Nat) : ℚ) ^ ((digitCount n : Int) - 1) ≤ n ∧
      (n : ℚ) < ((10 : Nat) : ℚ) ^ ((digitCount n : Int) - 1 + 1) := by
    intro n hn
    rw [sub_add_cancel]
    exact digitCount_spec hn
  have hspec := floorLog_spec (by decide) hden (hcount num hnum).1 (hcount num hnum).2
    (hcount den hden).1 (hcount den hden).2 (e := Decimal.floorLog10 num den) (by
      rw [sub_sub_sub_cancel_right]
      rfl)
  simpa only [Nat.cast_ofNat] using hspec.1

/-- The values in the interval of a number are neither tiny nor huge. -/
theorem Near.between {x : Binary64} (hx : x.Canonical) (hpos : 0 < x.significand) {v : ℚ}
    (h : x.Near v) : (2 : ℚ) ^ (-1075 : Int) ≤ v ∧ v < 2 ^ (1024 : Int) := by
  obtain ⟨hlow, hhigh⟩ := h.bounds hpos
  have hplace : (0 : ℚ) < 2 ^ x.exponent := zpow_pos two_pos _
  have hone : (1 : ℚ) ≤ x.significand := by exact_mod_cast hpos
  have hbounded : (x.significand : ℚ) + 1 ≤ 2 ^ 53 := by exact_mod_cast hx.bounded
  rw [le_div_iff₀ hplace] at hlow
  rw [div_le_iff₀ hplace] at hhigh
  constructor
  · calc (2 : ℚ) ^ (-1075 : Int) = 1 / 2 * 2 ^ (-1074 : Int) := by
          rw [show (-1075 : Int) = -1 + -1074 by norm_num, zpow_add₀ two_ne_zero]
          norm_num
      _ ≤ 1 / 2 * 2 ^ x.exponent := by
          gcongr
          · norm_num
          · exact hx.low
      _ ≤ (x.significand - x.down) * 2 ^ x.exponent := by
          gcongr
          linarith [x.down_le]
      _ ≤ v := hlow
  · calc v ≤ (x.significand + 1 / 2) * 2 ^ x.exponent := hhigh
      _ < 2 ^ 53 * 2 ^ x.exponent := by
          gcongr
          linarith
      _ ≤ 2 ^ 53 * 2 ^ (971 : Int) := by
          gcongr
          · norm_num
          · exact hx.high
      _ = 2 ^ (1024 : Int) := by
          rw [show (1024 : Int) = 53 + 971 by norm_num, zpow_add₀ two_ne_zero]
          norm_num

theorem two_pow_le_ten_pow : (2 : ℚ) ^ (1075 : Int) ≤ 10 ^ (325 : Int) := by
  have hpow : (2 : ℚ) ^ (43 : Int) ≤ 10 ^ (13 : Int) := by norm_num
  calc (2 : ℚ) ^ (1075 : Int) = (2 ^ (43 : Int)) ^ 25 := by
        rw [← zpow_natCast, ← zpow_mul]
        rfl
    _ ≤ (10 ^ (13 : Int)) ^ 25 := by gcongr
    _ = 10 ^ (325 : Int) := by
        rw [← zpow_natCast, ← zpow_mul]
        rfl

/-- A decimal that is neither tiny nor huge has a first digit near the point. -/
theorem digitCount_between {digits : Nat} (hdigits : 0 < digits) {exponent : Int}
    (hlow : (2 : ℚ) ^ (-1075 : Int) ≤ digits * 10 ^ exponent)
    (hhigh : (digits * 10 ^ exponent : ℚ) < 2 ^ (1024 : Int)) :
    -325 < (digitCount digits : Int) + exponent ∧ (digitCount digits : Int) + exponent ≤ 325 := by
  obtain ⟨hcount_le, hcount_lt⟩ := digitCount_spec hdigits
  have hpower : (0 : ℚ) < 10 ^ exponent := zpow_pos (by norm_num) _
  have hten : (1 : ℚ) < 10 := by norm_num
  constructor
  · refine (zpow_lt_zpow_iff_right₀ hten).mp ?_
    calc (10 : ℚ) ^ (-325 : Int) ≤ 2 ^ (-1075 : Int) := by
          rw [zpow_neg, zpow_neg]
          gcongr
          exact two_pow_le_ten_pow
      _ ≤ digits * 10 ^ exponent := hlow
      _ < 10 ^ (digitCount digits : Int) * 10 ^ exponent := by gcongr
      _ = 10 ^ ((digitCount digits : Int) + exponent) := (zpow_add₀ (by norm_num) _ _).symm
  · have hlt : (digitCount digits : Int) - 1 + exponent < 325 := by
      refine (zpow_lt_zpow_iff_right₀ hten).mp ?_
      calc (10 : ℚ) ^ ((digitCount digits : Int) - 1 + exponent)
          = 10 ^ ((digitCount digits : Int) - 1) * 10 ^ exponent := zpow_add₀ (by norm_num) _ _
        _ ≤ digits * 10 ^ exponent := by gcongr
        _ < 2 ^ (1024 : Int) := hhigh
        _ ≤ 2 ^ (1075 : Int) := zpow_le_zpow_right₀ one_le_two (by norm_num)
        _ ≤ 10 ^ (325 : Int) := two_pow_le_ten_pow
    omega

/-- A decimal in the interval of a number is read as that number. -/
theorem ofDecimal_of_near {x : Binary64} (hx : x.Canonical) (hpos : 0 < x.significand)
    {digits : Nat} {exponent : Int} (h : x.Near (digits * 10 ^ exponent)) (negative : Bool) :
    ofDecimal negative digits exponent = some ⟨negative, x.significand, x.exponent⟩ := by
  obtain ⟨hlow, hhigh⟩ := h.between hx hpos
  have hdigits : 0 < digits := by
    have hpower : (0 : ℚ) < 10 ^ exponent := zpow_pos (by norm_num) _
    have hvalue : (0 : ℚ) < digits * 10 ^ exponent := (zpow_pos two_pos _).trans_le hlow
    exact_mod_cast (pos_iff_pos_of_mul_pos hvalue).mpr hpower
  obtain ⟨hleast, hmost⟩ := digitCount_between hdigits hlow hhigh
  have hsmall : ¬ (digits = 0 ∨ (digitCount digits : Int) + exponent < -330) := by omega
  have hlarge : ¬ 330 < (digitCount digits : Int) + exponent := by omega
  obtain ⟨hden, hvalue⟩ :=
    divPow_spec (show 0 < 10 by decide) digits Nat.one_pos (-exponent)
  have hnear :
      x.Near ((divPow 10 digits 1 (-exponent)).1 / (divPow 10 digits 1 (-exponent)).2) := by
    rw [hvalue, zpow_neg, div_inv_eq_mul, Nat.cast_one, div_one, Nat.cast_ofNat]
    exact h
  unfold ofDecimal
  simp only [if_neg hsmall, if_neg hlarge]
  exact ofRatio_of_near hx hpos hden hnear negative

end Binary64
end QueryDoc
