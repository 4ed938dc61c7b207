import QueryDoc.Proofs.Decimal.Range
import QueryDoc.Proofs.Json.Inline

/-! Numbers of literals. The text of an integer becomes that integer or stays a text, and never
anything else. The text of a float becomes the number nearest to it, and null where it is too
large to have one. -/
namespace QueryDoc
open Numeral Binary64

/-! ## Integers -/

/-- The text of an integer and its value. -/
inductive SpellsInt : List Char → Int → Prop where
  | digits {ds : List Char} (negative : Bool) (hds : Digits ds) :
      SpellsInt (signText negative ++ ds)
        (if negative then -(digitsValue ds : Int) else digitsValue ds)

/-- A number without a fraction and without an exponent is an integer. -/
theorem spells_of_not_isFloat {cs : List Char} (h : IsNumber cs) (hfloat : isFloat cs = false) :
    ∃ n, SpellsInt cs n := by
  obtain ⟨hsign, hwhole, hfrac, hexp⟩ := h
  -- A point or the mark of an exponent makes the number a float.
  cases hfrac with
  | point hds => simp [isFloat] at hfloat
  | none =>
    cases hexp with
    | mark hc _ _ =>
      rcases hc with rfl | rfl
      · simp [isFloat] at hfloat
      · simp [isFloat] at hfloat
    | none =>
      rw [List.append_nil, List.append_nil]
      cases hsign with
      | none => exact ⟨_, .digits false hwhole⟩
      | minus => exact ⟨_, .digits true hwhole⟩

theorem spells_toString (n : Int) : SpellsInt (toString n).toList n := by
  have hspells := SpellsInt.digits (decide (n < 0)) (digits_toDigits n.natAbs)
  have hvalue : (if decide (n < 0) = true then -(n.natAbs : Int) else n.natAbs) = n := by
    by_cases hneg : n < 0
    · rw [if_pos (decide_eq_true hneg)]
      omega
    · rw [if_neg (by simpa using hneg)]
      omega
  rw [digitsValue_toDigits, hvalue, ← toString_toList] at hspells
  exact hspells

namespace Json

theorem readInt?_of_spells {cs : List Char} {n : Int} (h : SpellsInt cs n) :
    readInt? cs = some n := by
  cases h with
  | digits negative hds =>
    have hsign := readSign_digits hds [] negative
    rw [List.append_nil] at hsign
    simp only [readInt?, hsign, natural?_digits hds]
    rfl

/-- An integer that does not fit into 64 bits with a sign keeps its text. -/
theorem ofIntText_of_spells {text : String} {n : Int} (h : SpellsInt text.toList n) :
    ofIntText text = if fitsInt64 n then .number (.int n) else .string text := by
  rw [ofIntText, readInt?_of_spells h, Option.filter_some]
  by_cases hfits : fitsInt64 n = true
  · rw [if_pos hfits, if_pos hfits]
  · rw [if_neg hfits, if_neg hfits]

end Json

/-! ## Floats -/

/-- The text of a number that is too large to be rounded, whatever its sign. -/
inductive Overflows : List Char → Prop where
  | number {cs : List Char} {negative : Bool} {digits : Nat} {exponent : Int}
      (hspells : SpellsNumber cs negative digits exponent)
      (hlarge : overflow ≤ digits * 10 ^ exponent) : Overflows cs

namespace Json

theorem ofFloatText_of_spells {text : String} {negative : Bool} {digits : Nat} {exponent : Int}
    (h : SpellsNumber text.toList negative digits exponent) :
    ofFloatText text = .null ↔ overflow ≤ digits * 10 ^ exponent := by
  rw [ofFloatText, read?_of_spells h, ← ofDecimal_eq_none_iff digits exponent negative]
  cases ofDecimal negative digits exponent with
  | none => exact iff_of_true rfl rfl
  | some x => simp [Reading.ofOption, ofReading]

/-- The text of a number becomes null just where the number is too large. -/
theorem ofFloatText_eq_null_iff {text : String} (h : IsNumber text.toList) :
    ofFloatText text = .null ↔ Overflows text.toList := by
  constructor
  · intro hnull
    obtain ⟨negative, digits, exponent, hspells⟩ := spells_of_isNumber h
    exact .number hspells ((ofFloatText_of_spells hspells).mp hnull)
  · rintro ⟨hspells, hlarge⟩
    exact (ofFloatText_of_spells hspells).mpr hlarge

end Json
end QueryDoc
