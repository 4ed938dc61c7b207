import QueryDoc.Decimal.Text
import QueryDoc.Proofs.Decimal.Shortest
import QueryDoc.Proofs.Lexical.Numeral
import QueryDoc.Proofs.Lexical.Digits

/-! The text of a number is read back as that number. A text of digits with a point and an
exponent spells a decimal, and so the text of a decimal spells its value in either notation;
the text of a number spells a decimal in its interval. -/
namespace QueryDoc
namespace Binary64
open Numeral

/-! ## Signs -/

/-- A minus sign, if there is one. -/
def signText (negative : Bool) : List Char := if negative then ['-'] else []

theorem readSign_digits {ds : List Char} (h : Digits ds) (cs : List Char) (negative : Bool) :
    readSign (signText negative ++ (ds ++ cs)) = (negative, ds ++ cs) := by
  cases negative with
  | true => rfl
  | false =>
    obtain ⟨hne, hdigits⟩ := h
    cases ds with
    | nil => exact absurd rfl hne
    | cons d ds =>
      have hd := hdigits d List.mem_cons_self
      show readSign (d :: (ds ++ cs)) = _
      unfold readSign
      split
      · next heq =>
        cases heq
        cases hd
      · next heq =>
        cases heq
        cases hd
      · rfl

/-- The text of an integer: a minus sign, if it is negative, and its digits. -/
theorem toString_toList (n : Int) :
    (toString n).toList = signText (decide (n < 0)) ++ Nat.toDigits 10 n.natAbs := by
  rw [Int.toString_eq_repr]
  cases n with
  | ofNat n => exact Nat.toList_repr
  | negSucc n => simp [Int.repr, Nat.toList_repr, signText, Int.negSucc_lt_zero]

/-- A text that starts with a digit is no word. -/
theorem not_nonfinite {cs ds : List Char} (h : Digits ds) :
    (ds ++ cs).map lower ∉ nonfiniteWords := by
  obtain ⟨hne, hdigits⟩ := h
  cases ds with
  | nil => exact absurd rfl hne
  | cons d ds =>
    have hd : '0' ≤ d ∧ d ≤ '9' := by
      simpa [isDigit] using hdigits d List.mem_cons_self
    have hlower : lower d = d := by
      unfold lower
      rw [if_neg]
      intro hletter
      simp only [Bool.and_eq_true, decide_eq_true_eq] at hletter
      exact absurd (Char.le_trans hletter.1 hd.2) (by decide)
    intro hmem
    rw [List.cons_append, List.map_cons, hlower] at hmem
    have hhead : d = 'i' ∨ d = 'n' := by
      simp only [nonfiniteWords, List.mem_cons, List.not_mem_nil, or_false] at hmem
      rcases hmem with h | h | h
      · exact .inl (List.cons.inj h).1
      · exact .inl (List.cons.inj h).1
      · exact .inr (List.cons.inj h).1
    rcases hhead with rfl | rfl
    · exact absurd hd.2 (by decide)
    · exact absurd hd.2 (by decide)

/-! ## Spelled numbers -/

/-- The digits of an optional fraction. -/
inductive SpellsFraction : List Char → List Char → Prop where
  | none : SpellsFraction [] []
  | point {ds : List Char} (hds : Digits ds) : SpellsFraction ('.' :: ds) ds

/-- An optional sign, which is a minus sign or not. -/
inductive SpellsSign : List Char → Bool → Prop where
  | none : SpellsSign [] false
  | plus : SpellsSign ['+'] false
  | minus : SpellsSign ['-'] true

/-- The power of ten of an optional exponent. -/
inductive SpellsPower : List Char → Int → Prop where
  | none : SpellsPower [] 0
  | mark {c : Char} {sign ds : List Char} {negative : Bool} (hc : c = 'e' ∨ c = 'E')
      (hsign : SpellsSign sign negative) (hds : Digits ds) :
      SpellsPower (c :: (sign ++ ds)) (if negative then -(digitsValue ds : Int) else digitsValue ds)

/-- The text of a number with the sign, all digits and the power of ten that it has. -/
inductive SpellsNumber : List Char → Bool → Nat → Int → Prop where
  | number {whole frac ds exp : List Char} {power : Int} (negative : Bool)
      (hwhole : Digits whole) (hfrac : SpellsFraction frac ds) (hexp : SpellsPower exp power) :
      SpellsNumber (signText negative ++ (whole ++ (frac ++ exp))) negative
        (digitsValue (whole ++ ds)) (power - ds.length)

/-- Every number spells a sign, digits and a power of ten. -/
theorem spells_of_isNumber {cs : List Char} (h : IsNumber cs) :
    ∃ negative digits exponent, SpellsNumber cs negative digits exponent := by
  obtain @⟨sign, whole, frac, exp, hsign, hwhole, hfrac, hexp⟩ := h
  obtain ⟨negative, rfl⟩ : ∃ negative, sign = signText negative := by
    cases hsign with
    | none => exact ⟨false, rfl⟩
    | minus => exact ⟨true, rfl⟩
  obtain ⟨ds, hds⟩ : ∃ ds, SpellsFraction frac ds := by
    cases hfrac with
    | none => exact ⟨_, .none⟩
    | point hds => exact ⟨_, .point hds⟩
  obtain ⟨power, hpower⟩ : ∃ power, SpellsPower exp power := by
    cases hexp with
    | none => exact ⟨_, .none⟩
    | mark hc hsign hds =>
      cases hsign with
      | none => exact ⟨_, .mark hc .none hds⟩
      | plus => exact ⟨_, .mark hc .plus hds⟩
      | minus => exact ⟨_, .mark hc .minus hds⟩
  exact ⟨negative, _, _, .number negative hwhole hds hpower⟩

theorem readSign_of_spells {sign ds : List Char} {negative : Bool}
    (hsign : SpellsSign sign negative) (hds : Digits ds) : readSign (sign ++ ds) = (negative, ds) := by
  cases hsign with
  | none => simpa [signText] using readSign_digits hds [] false
  | plus => rfl
  | minus => rfl

theorem readExponent?_of_spells {cs : List Char} {power : Int} (h : SpellsPower cs power) :
    readExponent? cs = some power := by
  cases h with
  | none => rfl
  | mark hc hsign hds =>
    simp only [readExponent?, if_pos hc, readSign_of_spells hsign hds, natural?_digits hds]
    rfl

/-- After the fraction comes no digit and no point. -/
theorem SpellsPower.apart {p : Char → Bool} {cs : List Char} {power : Int} (h : SpellsPower cs power)
    (he : p 'e' = false) (hE : p 'E' = false) : Apart p cs := by
  cases h with
  | none => exact .nil _
  | mark hc _ _ => exact apart_mark hc he hE _

theorem readFraction_of_spells {frac ds exp : List Char} {power : Int}
    (hfrac : SpellsFraction frac ds) (hexp : SpellsPower exp power) :
    readFraction (frac ++ exp) = (ds, exp) := by
  have hdigit : Apart isDigit exp := hexp.apart rfl rfl
  cases hfrac with
  | none =>
    cases hexp with
    | none => rfl
    | mark hc _ _ => rcases hc with rfl | rfl <;> rfl
  | point hds =>
    show ((ds ++ exp).takeWhile isDigit, (ds ++ exp).dropWhile isDigit) = _
    rw [takeWhile_run hds.2 hdigit, dropWhile_run hds.2 hdigit]

/-- A text is read as the number that it spells. -/
theorem read?_of_spells {cs : List Char} {negative : Bool} {digits : Nat} {exponent : Int}
    (h : SpellsNumber cs negative digits exponent) :
    read? cs = some (.ofOption (ofDecimal negative digits exponent)) := by
  obtain @⟨whole, frac, ds, exp, power, negative, hwhole, hfrac, hexp⟩ := h
  -- The whole part ends at the point, at the mark of the exponent or with the text.
  have hapart : Apart isDigit (frac ++ exp) := by
    cases hfrac with
    | none => exact hexp.apart rfl rfl
    | point hds => exact .cons rfl _
  have hne : ¬ (whole.isEmpty = true ∧ ds.isEmpty = true) :=
    fun h => hwhole.1 (List.isEmpty_iff.mp h.1)
  simp only [read?, readSign_digits hwhole, not_nonfinite hwhole, if_false,
    takeWhile_run hwhole.2 hapart, dropWhile_run hwhole.2 hapart, readFraction_of_spells hfrac hexp,
    hne, readExponent?_of_spells hexp, Option.map_some]

/-! ## Written decimals -/

/-- The text of an exponent, which is missing where it is zero and has a sign where not. -/
inductive SpellsExponent : List Char → Int → Prop where
  | none : SpellsExponent [] 0
  | mark (power : Int) :
      SpellsExponent ('e' :: (if power < 0 then '-' else '+') :: Nat.toDigits 10 power.natAbs)
        power

theorem SpellsExponent.spells {cs : List Char} {e : Int} (h : SpellsExponent cs e) :
    SpellsPower cs e := by
  cases h with
  | none => exact .none
  | mark =>
    have hdigits := digits_toDigits e.natAbs
    by_cases hneg : e < 0
    · have hpower := SpellsPower.mark (.inl rfl) .minus hdigits
      have hvalue : -(e.natAbs : Int) = e := by omega
      rw [if_pos rfl, digitsValue_toDigits, hvalue] at hpower
      rw [if_pos hneg]
      exact hpower
    · have hpower := SpellsPower.mark (.inl rfl) .plus hdigits
      have hvalue : (e.natAbs : Int) = e := by omega
      rw [if_neg Bool.false_ne_true, digitsValue_toDigits, hvalue] at hpower
      rw [if_neg hneg]
      exact hpower

/-- The text of digits with a point, an exponent or both, and the value that it has. -/
inductive SpellsDecimal : List Char → ℚ → Prop where
  | point {whole frac exp : List Char} {e : Int} (hwhole : Digits whole)
      (hfrac : Digits frac) (hexp : SpellsExponent exp e) :
      SpellsDecimal (whole ++ '.' :: (frac ++ exp))
        (digitsValue (whole ++ frac) * 10 ^ (e - frac.length))
  | mark {whole : List Char} (hwhole : Digits whole) (power : Int) :
      SpellsDecimal
        (whole ++ 'e' :: (if power < 0 then '-' else '+') :: Nat.toDigits 10 power.natAbs)
        (digitsValue whole * 10 ^ power)

theorem SpellsDecimal.spells {cs : List Char} {v : ℚ} (h : SpellsDecimal cs v) (negative : Bool) :
    ∃ (digits : Nat) (exponent : Int), v = digits * 10 ^ exponent ∧
      SpellsNumber (signText negative ++ cs) negative digits exponent := by
  cases h with
  | point hwhole hfrac hexp =>
    exact ⟨_, _, rfl, .number negative hwhole (.point hfrac) hexp.spells⟩
  | mark hwhole power =>
    have hnumber := SpellsNumber.number negative hwhole .none (SpellsExponent.mark power).spells
    rw [List.append_nil, List.length_nil, Nat.cast_zero, sub_zero] at hnumber
    exact ⟨_, _, rfl, hnumber⟩

end Binary64

namespace Decimal
open Numeral Binary64

/-! ## The two notations -/

/-- Digits around a point spell the number that all of them spell, moved by as many places as
stand after the point. -/
theorem spells_point {whole frac : List Char} (hwhole : Digits whole) (hfrac : Digits frac)
    {d : Decimal}
    (hvalue : (digitsValue (whole ++ frac) : ℚ) = d.digits * 10 ^ (d.exponent + frac.length)) :
    SpellsDecimal (whole ++ '.' :: frac) d.value := by
  have hspells := SpellsDecimal.point hwhole hfrac .none
  rw [List.append_nil, hvalue, mul_assoc, ← zpow_add₀ (by norm_num), zero_sub,
    add_neg_cancel_right] at hspells
  exact hspells

theorem spells_positional (d : Decimal) : SpellsDecimal d.positional d.value := by
  have hdigits := digits_toDigits d.digits
  have hvalue := digitsValue_toDigits d.digits
  unfold positional
  dsimp only
  generalize Nat.toDigits 10 d.digits = ds at hdigits hvalue
  -- The point stands after zeros behind the digits, between the digits, or before zeros.
  split
  · next hexp =>
    obtain ⟨k, hk⟩ := Int.eq_ofNat_of_zero_le hexp
    refine spells_point (hdigits.append (digits_zeros _)) digits_zero ?_
    rw [digitsValue_append, digitsValue_append, digitsValue_zeros, hvalue, hk, Int.toNat_natCast,
      List.length_replicate]
    have hlast : digitsValue ['0'] = 0 := rfl
    have hlength : ['0'].length = 1 := rfl
    rw [hlast, hlength, ← Nat.cast_add, zpow_natCast]
    push_cast
    ring
  · next hexp =>
    split
    · next hwhole =>
      obtain ⟨w, hw⟩ := Int.eq_ofNat_of_zero_le hwhole.le
      rw [hw, Int.toNat_natCast]
      have htake : Digits (ds.take w) := by
        refine ⟨?_, fun c hc => hdigits.2 c (List.mem_of_mem_take hc)⟩
        rw [Ne, List.take_eq_nil_iff, not_or]
        exact ⟨by omega, hdigits.1⟩
      have hdrop : Digits (ds.drop w) := by
        refine ⟨?_, fun c hc => hdigits.2 c (List.mem_of_mem_drop hc)⟩
        rw [Ne, List.drop_eq_nil_iff]
        omega
      refine spells_point htake hdrop ?_
      have hplaces : d.exponent + (ds.drop w).length = 0 := by
        rw [List.length_drop]
        omega
      rw [List.take_append_drop, hvalue, hplaces, zpow_zero, mul_one]
    · next hwhole =>
      obtain ⟨z, hz⟩ := Int.eq_ofNat_of_zero_le (show 0 ≤ -(ds.length + d.exponent) by omega)
      rw [hz, Int.toNat_natCast]
      have hfrac : Digits (List.replicate z '0' ++ ds) := by
        refine ⟨List.append_ne_nil_of_right_ne_nil _ hdigits.1, ?_⟩
        intro c hc
        rcases List.mem_append.mp hc with hc | hc
        · exact digits_zeros z c hc
        · exact hdigits.2 c hc
      refine spells_point digits_zero hfrac ?_
      have hplaces : d.exponent + (List.replicate z '0' ++ ds).length = 0 := by
        rw [List.length_append, List.length_replicate]
        omega
      have hzeros : digitsValue (['0'] ++ (List.replicate z '0' ++ ds)) = d.digits := by
        rw [← List.append_assoc, digitsValue_append, hvalue, List.singleton_append,
          ← List.replicate_succ, digitsValue_zeros, Nat.zero_mul, Nat.zero_add]
      rw [hzeros, hplaces, zpow_zero, mul_one]

theorem spells_scientific (d : Decimal) : SpellsDecimal d.scientific d.value := by
  have hdigits := digits_toDigits d.digits
  have hvalue := digitsValue_toDigits d.digits
  unfold scientific
  dsimp only
  generalize Nat.toDigits 10 d.digits = ds at hdigits hvalue
  obtain ⟨hne, hdigits⟩ := hdigits
  match ds with
  | [] => exact absurd rfl hne
  | [c] =>
    have hpower : d.exponent + ([c] : List Char).length - 1 = d.exponent := by
      rw [List.length_singleton]
      omega
    have hspells := SpellsDecimal.mark ⟨hne, hdigits⟩ d.exponent
    rw [hvalue] at hspells
    rw [hpower]
    exact hspells
  | c :: c' :: cs =>
    obtain ⟨hc, hcs⟩ := List.forall_mem_cons.mp hdigits
    have hfirst : Digits [c] := ⟨List.cons_ne_nil _ _, List.forall_mem_singleton.mpr hc⟩
    have hspells := SpellsDecimal.point hfirst
      ⟨List.cons_ne_nil _ _, hcs⟩ (.mark (d.exponent + (c :: c' :: cs).length - 1))
    have hpower : d.exponent + (c :: c' :: cs).length - 1 - (c' :: cs).length = d.exponent := by
      rw [List.length_cons]
      push_cast
      omega
    rw [List.singleton_append, List.singleton_append, hvalue, hpower] at hspells
    exact hspells

/-- The text of a decimal spells its value, in whichever notation. -/
theorem spells_chars (style : FloatStyle) (d : Decimal) :
    SpellsDecimal (d.chars style) d.value := by
  unfold chars
  dsimp only
  split
  · exact d.spells_positional
  · exact d.spells_scientific

end Decimal

namespace Binary64
open Numeral

/-! ## Numbers -/

/-- The text of a number without its sign. -/
def bodyText (x : Binary64) : List Char :=
  if x.isZero then ['0', '.', '0'] else (Decimal.shortest x).chars .literal

theorem toText_toList (x : Binary64) :
    x.toText.toList = signText x.negative ++ x.bodyText := String.toList_ofList

theorem spells_bodyText (x : Binary64) : ∃ v, SpellsDecimal x.bodyText v := by
  unfold bodyText
  split
  · exact ⟨_, .point digits_zero digits_zero .none⟩
  · exact ⟨_, Decimal.spells_chars _ _⟩

/-- An integer that is not too long is no different from a decimal without a power of ten. -/
theorem ofDecimal_zero {n : Nat} (hn : n < 10 ^ 20) (negative : Bool) :
    ofDecimal negative n 0 = ofNat negative n := by
  have hcount : digitCount n ≤ 20 := (Nat.length_toDigits_le_iff (by decide) (by decide)).mpr hn
  unfold ofDecimal
  dsimp only
  by_cases hzero : n = 0
  · rw [if_pos (.inl hzero), hzero]
    rfl
  · have hsmall : ¬ (n = 0 ∨ (digitCount n : Int) + 0 < -330) := by omega
    have hlarge : ¬ 330 < (digitCount n : Int) + 0 := by omega
    rw [if_neg hsmall, if_neg hlarge]
    rfl

/-- The text of an integer is read as the number nearest to it. -/
theorem read?_toString {n : Int} (hn : n.natAbs < 10 ^ 20) :
    read? (toString n).toList = some (.ofOption (ofNat (decide (n < 0)) n.natAbs)) := by
  have hnumber :=
    SpellsNumber.number (decide (n < 0)) (digits_toDigits n.natAbs) .none .none
  rw [List.append_nil, List.append_nil, digitsValue_toDigits] at hnumber
  rw [toString_toList, ← ofDecimal_zero hn]
  exact read?_of_spells hnumber

/-- The text of a number is read back as that number. -/
theorem read?_toText {x : Binary64} (hx : x.Canonical) :
    read? x.toText.toList = some (.finite x) := by
  rw [toText_toList]
  by_cases hzero : x.significand = 0
  · have hexponent : x.exponent = -1074 := hx.full.resolve_left (by rw [hzero]; decide)
    obtain ⟨negative, significand, exponent⟩ := x
    obtain rfl : significand = 0 := hzero
    obtain rfl : exponent = -1074 := hexponent
    cases negative <;> rfl
  · have hpos : 0 < x.significand := Nat.pos_of_ne_zero hzero
    have hbody : x.bodyText = (Decimal.shortest x).chars .literal :=
      if_neg (by simpa [isZero] using hzero)
    obtain ⟨digits, exponent, hvalue, hnumber⟩ :=
      (Decimal.spells_chars .literal (Decimal.shortest x)).spells x.negative
    have hnear := Decimal.near_shortest hx hpos
    rw [hvalue] at hnear
    rw [hbody, read?_of_spells hnumber, ofDecimal_of_near hx hpos hnear]
    rfl

end Binary64
end QueryDoc
