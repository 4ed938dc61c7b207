import QueryDoc.Proofs.Json.Faithful
import QueryDoc.Proofs.Json.Numbers

/-! What becomes of the parts of a literal. A list becomes an array of as many items and an
object one with the same names, and each part becomes what it would become by itself; so null
comes from null, from a variable without a value, and from a float that is too large. -/
namespace QueryDoc
open Numeral Binary64

/-! ## Parts -/

/-- The value of the last field of a name. -/
def Value.lastField? (name : String) (fs : List ObjectField) : Option Value :=
  (fs.reverse.find? (·.name.text == name)).map (·.value)

/-- A part of a literal and the JSON at its place: the item at the same index, and the value of
the last field of a name under that name. -/
inductive Value.Becomes : Value → Json → Value → Json → Prop where
  | here (v : Value) (j : Json) : Becomes v j v j
  | item {vs : List Value} {js : List Json} {i : Nat} {v u : Value} {j k : Json}
      (hv : vs[i]? = some v) (hj : js[i]? = some j) (h : Becomes v j u k) :
      Becomes (.list vs) (.array js) u k
  | field {fs : List ObjectField} {ms : List JsonMember} {name : String} {v u : Value} {j k : Json}
      (hv : Value.lastField? name fs = some v) (hj : Json.lookup name ms = some j)
      (h : Becomes v j u k) : Becomes (.object fs) (.object ms) u k

namespace Value
variable {given : Variables}

theorem toJsonList_eq (vs : List Value) : toJsonList given vs = vs.map (toJson given) := by
  induction vs with
  | nil => rfl
  | cons v vs ih => rw [toJsonList, ih, List.map_cons]

theorem toJsonFields_eq (fs : List ObjectField) :
    toJsonFields given fs = fs.map fun f => (f.name.text, f.value.toJson given) := by
  induction fs with
  | nil => rfl
  | cons f fs ih =>
    obtain ⟨n, v⟩ := f
    rw [toJsonFields, ih, List.map_cons]

/-- Under a name stands what the last field of that name becomes. -/
theorem lookup_toJsonFields (name : String) (fs : List ObjectField) :
    Json.lookup name ((toJsonFields given fs).foldl (fun ms m => Json.insert m.1 m.2 ms) []) =
      (lastField? name fs).map (toJson given) := by
  -- The last field is inserted last, so it is the one that decides.
  induction fs using List.reverseRecOn with
  | nil => rfl
  | append_singleton fs f ih =>
    rw [toJsonFields_eq] at ih ⊢
    rw [List.map_append, List.foldl_append, List.map_singleton, List.foldl_cons, List.foldl_nil,
      Json.lookup_insert, ih, lastField?, lastField?, List.reverse_append, List.reverse_singleton,
      List.singleton_append]
    by_cases hname : f.name.text = name
    · rw [if_pos hname, List.find?_cons_of_pos (by simpa using hname)]
      rfl
    · rw [if_neg hname, List.find?_cons_of_neg (by simpa using hname)]

theorem toJson_object (given : Variables) (fs : List ObjectField) :
    ∃ ms, (Value.object fs).toJson given = .object ms ∧
      ∀ name, Json.lookup name ms = (lastField? name fs).map (toJson given) :=
  ⟨_, rfl, fun name => lookup_toJsonFields name fs⟩

/-- A part of a valid literal is valid, and it becomes what it would become by itself. -/
theorem Becomes.of_toJson {v u : Value} {j k : Json} (h : Becomes v j u k)
    (hj : j = v.toJson given) (hv : v.Valid) : k = u.toJson given ∧ u.Valid := by
  induction h with
  | here => exact ⟨hj, hv⟩
  | @item vs js i v u j k hitem hj' _ ih =>
    rw [toJson, toJsonList_eq] at hj
    cases hj
    rw [List.getElem?_map, hitem] at hj'
    exact ih (Option.some.inj hj').symm (validList_iff.mp hv v (List.mem_of_getElem? hitem))
  | @field fs ms name v u j k hfield hj' _ ih =>
    obtain ⟨ms', hms, hlookup⟩ := toJson_object given fs
    rw [hms] at hj
    cases hj
    rw [hlookup, hfield] at hj'
    refine ih (Option.some.inj hj').symm ?_
    obtain ⟨f, hf, rfl⟩ := Option.map_eq_some_iff.mp hfield
    exact (validFields_iff.mp hv f (List.mem_reverse.mp (List.mem_of_find?_eq_some hf))).2

/-! ## Null -/

/-- The literals that become null. -/
inductive BecomesNull (given : Variables) : Value → Prop where
  | null : BecomesNull given .null
  | missing {x : Variable} (h : Json.lookup x.name.text given = none) : BecomesNull given (.variable x)
  | given {x : Variable} (h : Json.lookup x.name.text given = some .null) :
      BecomesNull given (.variable x)
  | overflow {text : String} (h : Overflows text.toList) : BecomesNull given (.float text)

theorem toJson_eq_null_iff {v : Value} (hv : v.Valid) :
    v.toJson given = .null ↔ BecomesNull given v := by
  cases v with
  | null => exact iff_of_true rfl .null
  | boolean | string | enum | list | object => exact iff_of_false (by rintro ⟨⟩) (by rintro ⟨⟩)
  | int text =>
    obtain ⟨n, hn⟩ := spells_of_not_isFloat hv.1 hv.2
    have hnumber : (Value.int text).toJson given ≠ .null := by
      rw [toJson, Json.ofIntText_of_spells hn]
      split <;> exact Json.noConfusion
    exact iff_of_false hnumber (by rintro ⟨⟩)
  | float text =>
    rw [toJson, Json.ofFloatText_eq_null_iff hv.1]
    constructor
    · exact .overflow
    · rintro ⟨⟩
      assumption
  | «variable» x =>
    rw [toJson]
    constructor
    · intro hnull
      cases hx : Json.lookup x.name.text given with
      | none => exact .missing hx
      | some j =>
        rw [hx] at hnull
        exact .given (hx.trans (congrArg some hnull))
    · rintro (_ | hx | hx | _)
      · rw [hx]
        rfl
      · rw [hx]
        rfl

/-- A list becomes an array of as many items, and an object one with the same names. -/
def SameShape : Value → Json → Prop
  | .list vs, .array js => js.length = vs.length
  | .object fs, .object ms =>
    ∀ name, (Json.lookup name ms).isSome = (lastField? name fs).isSome
  | .list _, _ | .object _, _ => False
  | _, _ => True

theorem sameShape_toJson (v : Value) : SameShape v (v.toJson given) := by
  cases v with
  | list vs =>
    show (toJsonList given vs).length = vs.length
    rw [toJsonList_eq, List.length_map]
  | object fs =>
    intro name
    rw [lookup_toJsonFields, Option.isSome_map]
  | _ => trivial

theorem valid_of_parse {source : String} {v : Value} (h : Production.value.parse source = .ok v) :
    v.Valid :=
  keeps_value.of_parse (fun _ _ => proper_value) Rule.sound_value h

/-- In the JSON of a literal that was read, null is at the places of null, of variables without
a value and of floats that are too large, and nowhere else. An integer that is too large is
there as its text. -/
theorem becomes_null_iff {source : String} {v : Value}
    (h : Production.value.parse source = .ok v) (given : Variables) {u : Value} {k : Json}
    (hpart : v.Becomes (v.toJson given) u k) :
    (k = .null ↔ BecomesNull given u) ∧ SameShape u k ∧
      ∀ text, u = .int text → ∃ n, SpellsInt text.toList n ∧
        k = if Json.fitsInt64 n then .number (.int n) else .string text := by
  obtain ⟨rfl, hu⟩ := hpart.of_toJson rfl (valid_of_parse h)
  refine ⟨toJson_eq_null_iff hu, sameShape_toJson u, ?_⟩
  rintro text rfl
  obtain ⟨n, hn⟩ := spells_of_not_isFloat hu.1 hu.2
  exact ⟨n, hn, Json.ofIntText_of_spells hn⟩

/-- A list of an object with two floats that are too large, the first one under a name that
comes again. -/
def nestedFloats : Value :=
  .list [.object [⟨⟨"x"⟩, .float "1e999"⟩, ⟨⟨"x"⟩, .int "5"⟩, ⟨⟨"y"⟩, .float "-2E400"⟩],
    .variable ⟨⟨"a"⟩⟩]

theorem becomes_null_nestedFloats :
    Production.value.parse "[\x7bx: 1e999, x: 5, y: -2E400\x7d, $a]" = .ok nestedFloats ∧
      nestedFloats.Becomes (nestedFloats.toJson []) (.float "-2E400") .null ∧
      BecomesNull [] (.float "-2E400") := by
  have hparse : Production.value.parse "[\x7bx: 1e999, x: 5, y: -2E400\x7d, $a]" =
      .ok nestedFloats := ok_of_toOption (by decide +kernel)
  have hjson : nestedFloats.toJson [] =
      .array [.object [⟨"x", .number (.int 5)⟩, ⟨"y", .null⟩], .null] := rfl
  have hpart : nestedFloats.Becomes (nestedFloats.toJson []) (.float "-2E400") .null := by
    rw [hjson]
    have hfield : Becomes
        (.object [⟨⟨"x"⟩, .float "1e999"⟩, ⟨⟨"x"⟩, .int "5"⟩, ⟨⟨"y"⟩, .float "-2E400"⟩])
        (.object [⟨"x", .number (.int 5)⟩, ⟨"y", .null⟩]) (.float "-2E400") .null :=
      .field (show lastField? "y" _ = _ from rfl) rfl (.here _ _)
    exact .item (i := 0) rfl rfl hfield
  exact ⟨hparse, hpart, (becomes_null_iff hparse [] hpart).1.mp rfl⟩

/-- A float is read and becomes null. -/
theorem toJson_large : Production.value.parse "1e999" = .ok (.float "1e999") ∧
    (Value.float "1e999").toJson [] = .null :=
  ⟨ok_of_toOption (by decide +kernel), rfl⟩

end Value
end QueryDoc
