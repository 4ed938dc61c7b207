import QueryDoc.Json.Literal
import QueryDoc.Proofs.Decimal.Text
import QueryDoc.Proofs.Grammar.Wellformed
import QueryDoc.Proofs.Print.Reparse

/-! JSON values as literals in a query document. The printed literal of a JSON value is
read back as that literal exactly where every key of an object in it is spelled like a
name: a literal has no way to write any other key, so a key that is no name is printed as
it is and read as whatever it spells. Strings and numbers never do any harm. -/
namespace QueryDoc
open IsNode Rule

/-! ## Numbers -/

namespace Numeral

/-- Digits have neither a fraction nor an exponent. -/
theorem isFloat_digits {ds : List Char} (h : ∀ c ∈ ds, isDigit c = true) : isFloat ds = false := by
  rw [isFloat, List.any_eq_false]
  intro c hc
  have hd := h c hc
  have he : isDigit '.' = false ∧ isDigit 'e' = false ∧ isDigit 'E' = false := by decide
  simp only [Bool.or_eq_true, decide_eq_true_eq]
  rintro ((rfl | rfl) | rfl) <;> simp_all

theorem isMinus_signText (negative : Bool) : IsMinus (Binary64.signText negative) := by
  cases negative with
  | true => exact .minus
  | false => exact .none

/-- The text of an integer is a number without a fraction or an exponent. -/
theorem isNumber_int (n : Int) :
    IsNumber (toString n).toList ∧ isFloat (toString n).toList = false := by
  have hdigits := digits_toDigits n.natAbs
  have hnumber := IsNumber.number (isMinus_signText (decide (n < 0))) hdigits .none .none
  rw [List.append_nil, List.append_nil] at hnumber
  have hfloat := isFloat_digits hdigits.2
  rw [Binary64.toString_toList]
  refine ⟨hnumber, ?_⟩
  cases decide (n < 0) with
  | true => simpa [Binary64.signText, isFloat] using hfloat
  | false => exact hfloat

end Numeral

namespace Binary64
open Numeral

theorem SpellsExponent.isExponent {cs : List Char} {e : Int} (h : SpellsExponent cs e) :
    IsExponent cs := by
  cases h with
  | none => exact .none
  | mark =>
    have hsign : IsSign [if e < 0 then '-' else '+'] := by
      split
      · exact .minus
      · exact .plus
    exact .mark (.inl rfl) hsign (digits_toDigits _)

/-- With or without a minus sign, a spelled decimal is a number with a fraction or an
exponent. -/
theorem SpellsDecimal.isNumber {sign cs : List Char} {v : ℚ} (hs : IsMinus sign)
    (h : SpellsDecimal cs v) : IsNumber (sign ++ cs) ∧ isFloat (sign ++ cs) = true := by
  cases h with
  | point hwhole hfrac hexp =>
    exact ⟨.number hs hwhole (.point hfrac) hexp.isExponent, by simp [isFloat]⟩
  | mark hwhole power =>
    exact ⟨.number hs hwhole .none (SpellsExponent.mark power).isExponent, by simp [isFloat]⟩

/-- The text of a floating-point number is a number with a fraction or an exponent. -/
theorem isNumber_toText (x : Binary64) :
    IsNumber x.toText.toList ∧ isFloat x.toText.toList = true := by
  obtain ⟨v, hbody⟩ := x.spells_bodyText
  rw [toText_toList]
  exact hbody.isNumber (isMinus_signText x.negative)

end Binary64

/-! ## Literals -/

mutual

/-- Whether every key of an object, at every depth, is spelled like a name. -/
def Json.keysNamed : Json → Bool
  | .null | .bool _ | .number _ | .string _ => true
  | .array items => Json.keysNamedList items
  | .object members => Json.keysNamedMembers members

def Json.keysNamedList : List Json → Bool
  | [] => true
  | j :: js => j.keysNamed && Json.keysNamedList js

def Json.keysNamedMembers : List JsonMember → Bool
  | [] => true
  | ⟨key, j⟩ :: ms => (Name.isSpelling key.toList && j.keysNamed) && Json.keysNamedMembers ms

end

theorem JsonNumber.valid_toValue (n : JsonNumber) : n.toValue.Valid := by
  cases n with
  | int n => exact Numeral.isNumber_int n
  | float x => exact x.isNumber_toText

mutual

/-- The literal of a JSON value can be written down where the keys are names. -/
theorem Json.valid_toValue (j : Json) : j.toValue.Valid ↔ j.keysNamed = true := by
  match j with
  | .null | .bool _ | .string _ => simp [Json.toValue, Value.Valid, Json.keysNamed]
  | .number n => simp [Json.toValue, Json.keysNamed, n.valid_toValue]
  | .array items =>
    simp [Json.toValue, Value.Valid, Json.keysNamed, Json.valid_toValueList items]
  | .object members =>
    simp [Json.toValue, Value.Valid, Json.keysNamed, Json.valid_toValueMembers members]
termination_by structural j

theorem Json.valid_toValueList (js : List Json) :
    Value.ValidList (Json.toValueList js) ↔ Json.keysNamedList js = true := by
  match js with
  | [] => simp [Json.toValueList, Value.ValidList, Json.keysNamedList]
  | j :: js =>
    simp [Json.toValueList, Value.ValidList, Json.keysNamedList, Json.valid_toValue j,
      Json.valid_toValueList js]
termination_by structural js

theorem Json.valid_toValueMembers (ms : List JsonMember) :
    Value.ValidFields (Json.toValueMembers ms) ↔ Json.keysNamedMembers ms = true := by
  match ms with
  | [] => simp [Json.toValueMembers, Value.ValidFields, Json.keysNamedMembers]
  | ⟨key, j⟩ :: ms =>
    simp [Json.toValueMembers, Value.ValidFields, Json.keysNamedMembers, Name.Valid,
      Json.valid_toValue j, Json.valid_toValueMembers ms]
termination_by structural ms

end

mutual

/-- The literal of a JSON value has no blocks. -/
theorem Json.fitted_toValue (j : Json) : j.toValue.fitted = j.toValue := by
  match j with
  | .null | .bool _ | .string _ | .number (.int _) | .number (.float _) => rfl
  | .array items => simp [Json.toValue, Value.fitted, Json.fitted_toValueList items]
  | .object members => simp [Json.toValue, Value.fitted, Json.fitted_toValueMembers members]
termination_by structural j

theorem Json.fitted_toValueList (js : List Json) :
    Value.fittedList (Json.toValueList js) = Json.toValueList js := by
  match js with
  | [] => rfl
  | j :: js =>
    simp [Json.toValueList, Value.fittedList, Json.fitted_toValue j, Json.fitted_toValueList js]
termination_by structural js

theorem Json.fitted_toValueMembers (ms : List JsonMember) :
    Value.fittedFields (Json.toValueMembers ms) = Json.toValueMembers ms := by
  match ms with
  | [] => rfl
  | ⟨key, j⟩ :: ms =>
    simp [Json.toValueMembers, Value.fittedFields, Json.fitted_toValue j,
      Json.fitted_toValueMembers ms]
termination_by structural ms

end

/-! ## Reading the printed literal -/

/-- The printed literal of a JSON value is read as that literal if every key in it is a
name, and only then. -/
theorem parse_print_toValue (j : Json) :
    Entry.value.parse (toNode j.toValue).print = .ok (toNode j.toValue) ↔
      j.keysNamed = true := by
  rw [← Json.valid_toValue, ← Node.valid_ofValue]
  constructor
  · intro h
    exact Entry.valid_of_parse h
  · intro hv
    have hplain : (Node.ofValue j.toValue).plain = Node.ofValue j.toValue := by
      cases j.toValue <;> rfl
    have hlong : ¬ Entry.value.TooShort (Node.ofValue j.toValue) := by
      rintro (⟨he | he, -⟩ | ⟨he, -⟩) <;> cases he
    have hread : Entry.value.parse (Node.ofValue j.toValue).print = _ :=
      parse_printAt_of_long .default 0 hv ⟨j.toValue, hplain.symm⟩ hlong
    rw [hplain] at hread
    refine hread.trans (congrArg Except.ok ?_)
    exact (fitted_value j.toValue).symm.trans (congrArg toNode j.fitted_toValue)

/-- An object with a key that spells a member and the start of the next one. -/
def splicedObject : Json := .object [⟨"x: 1, y", .number (.int 2)⟩]

/-- The literal that such an object is printed as: it has two members. -/
def splicedLiteral : Value := .object [⟨⟨"x"⟩, .int "1"⟩, ⟨⟨"y"⟩, .int "2"⟩]

/-- A key of an object can change the structure of the printed literal. -/
theorem parse_print_spliced :
    Entry.value.parse (toNode splicedObject.toValue).print = .ok (toNode splicedLiteral) ∧
      Entry.value.parse (toNode splicedObject.toValue).print ≠
        .ok (toNode splicedObject.toValue) := by
  refine ⟨ok_of_toOption (by decide +kernel), ?_⟩
  intro h
  exact absurd (congrArg Except.toOption h) (by decide +kernel)

end QueryDoc
