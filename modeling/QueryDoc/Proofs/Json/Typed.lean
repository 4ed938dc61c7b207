import Mathlib.Data.List.Forall2
import QueryDoc.Proofs.Json.RoundTrip

/-! JSON values at types. A value has a literal at a type unless, somewhere in it, null meets a
non-null type or a value meets a scalar type that cannot represent it; which value meets which
type is told by going down both at once. The literal has the shape of the type, and it is read
back as the value, put into the form that the type asks for. -/
namespace QueryDoc

/-! ## Values that meet types -/

namespace Json

/-- The value is one item: neither null nor an array. -/
structure Single (j : Json) : Prop where
  not_null : j ≠ .null
  not_array : ∀ items, j ≠ .array items

end Json

namespace Scalar

/-- The scalar type has a literal for the value. -/
inductive Represents : Scalar → Json → Prop where
  | boolean (b : Bool) : Represents .boolean (.bool b)
  | int {n : Int} (hlow : -2147483648 ≤ n) (hhigh : n ≤ 2147483647) :
      Represents .int (.number (.int n))
  | float (n : JsonNumber) : Represents .float (.number n)
  | idText (s : String) : Represents .id (.string s)
  | idNumber (n : Int) : Represents .id (.number (.int n))
  | string (s : String) : Represents .string (.string s)

/-- The literals of a scalar type. -/
inductive HasShape : Scalar → Value → Prop where
  | boolean (b : Bool) : HasShape .boolean (.boolean b)
  | int {n : Int} (hlow : -2147483648 ≤ n) (hhigh : n ≤ 2147483647) :
      HasShape .int (.int (toString n))
  | float (text : String) : HasShape .float (.float text)
  | id (s : String) : HasShape .id (.string s false)
  | string (s : String) : HasShape .string (.string s false)

end Scalar

namespace TypeRef

/-- Going down a type and a value at once, the second type and the second value are come to.
A list type goes down to the items of an array, and with any other value to its own item type. -/
inductive Meets : TypeRef → Json → TypeRef → Json → Prop where
  | here (t : TypeRef) (j : Json) : Meets t j t j
  | nonNull {inner t : TypeRef} {j k : Json} (hj : j ≠ .null) (h : Meets inner j t k) :
      Meets (.nonNull inner) j t k
  | item {item t : TypeRef} {js : List Json} {j k : Json} (hj : j ∈ js) (h : Meets item j t k) :
      Meets (.list item) (.array js) t k
  | single {item t : TypeRef} {j k : Json} (hj : j.Single) (h : Meets item j t k) :
      Meets (.list item) j t k

/-- The value has no literal at the type itself. -/
inductive Rejects : TypeRef → Json → Prop where
  | null (inner : TypeRef) : Rejects (.nonNull inner) .null
  | scalar {t : NamedType} {s : Scalar} {j : Json} (hname : t.name.text = s.name)
      (hj : j ≠ .null) (h : ¬ s.Represents j) : Rejects (.named t) j

/-- Somewhere in the value a part of it meets a type that rejects it. -/
def Clashes (t : TypeRef) (j : Json) : Prop := ∃ u k, Meets t j u k ∧ Rejects u k

/-- The literals of a type. A named type that is no scalar of every schema has any. -/
inductive HasShape : TypeRef → Value → Prop where
  | null {t : TypeRef} (ht : ∀ inner, t ≠ .nonNull inner) : HasShape t .null
  | nonNull {inner : TypeRef} {v : Value} (hv : v ≠ .null) (h : HasShape inner v) :
      HasShape (.nonNull inner) v
  | list {item : TypeRef} {vs : List Value} (h : ∀ v ∈ vs, HasShape item v) :
      HasShape (.list item) (.list vs)
  | scalar {t : NamedType} {s : Scalar} {v : Value} (hname : t.name.text = s.name)
      (h : s.HasShape v) : HasShape (.named t) v
  | other {t : NamedType} (hname : ∀ s : Scalar, t.name.text ≠ s.name) (v : Value) :
      HasShape (.named t) v

end TypeRef

/-! ## Values in the form of a type -/

/-- A number as a floating-point number: an integer is the one nearest to it. -/
def JsonNumber.double : JsonNumber → Json
  | .int n => Json.ofReading (.ofOption (Binary64.ofNat (decide (n < 0)) n.natAbs))
  | .float x => .number (.float x)

/-- An integer lies in the interval of the floating-point number that stands for it. -/
theorem JsonNumber.double_int {n : Int} (hn : (JsonNumber.int n).Valid) :
    ∃ x : Binary64, (JsonNumber.int n).double = .number (.float x) ∧ x.Canonical ∧
      (n ≠ 0 → x.negative = decide (n < 0) ∧ x.Near n.natAbs) := by
  obtain ⟨hlow, hhigh⟩ := hn
  obtain ⟨x, hx⟩ := Binary64.ofNat_exists (show n.natAbs < 2 ^ 64 by omega) (decide (n < 0))
  refine ⟨x, ?_, Binary64.ofNat_canonical hx, fun hzero => ?_⟩
  · rw [JsonNumber.double, hx]
    rfl
  · have hpos : 0 < n.natAbs := Int.natAbs_pos.mpr hzero
    obtain ⟨-, hnegative, -, hnear⟩ := Binary64.ofRatio_spec hpos Nat.one_pos hx
    have hvalue := hnear (Binary64.ofNat_pos hpos hx)
    rw [Nat.cast_one, div_one] at hvalue
    exact ⟨hnegative, hvalue⟩

/-- A value at a scalar type: integers at identifiers are texts. -/
def Scalar.settled : Scalar → Json → Json
  | .id, .number (.int n) => .string (toString n)
  | .float, .number n => n.double
  | _, j => j

/-- A value at a named type. -/
def NamedType.settled (t : NamedType) (j : Json) : Json :=
  match Scalar.ofName? t.name.text with
  | some s => s.settled j
  | none => j.narrowed

/-- A value at a type: a single value at a list type is put into a list. -/
def TypeRef.settled : TypeRef → Json → Json
  | _, .null => .null
  | .nonNull inner, j => inner.settled j
  | .list item, .array js => .array (js.map item.settled)
  | .list item, j => .array [item.settled j]
  | .named t, j => t.settled j

/-! ## Results -/

/-- A result is a failure only where the proposition holds, and else a value that has the
property. -/
def FailsOrGives {ε α : Type} (fails : Prop) (gives : α → Prop) : Except ε α → Prop
  | .error _ => fails
  | .ok a => gives a

namespace FailsOrGives
variable {ε α β : Type} {fails fails' : Prop} {gives : α → Prop} {gives' : β → Prop}

/-- A result is turned into another one by a function on values. -/
theorem map {r : Except ε α} {f : α → β} (h : FailsOrGives fails gives r)
    (hfails : fails → fails') (hgives : ∀ a, gives a → gives' (f a)) :
    FailsOrGives fails' gives' (do return f (← r)) := by
  cases r with
  | error e => exact hfails h
  | ok a => exact hgives a h

theorem mono {r : Except ε α} {gives' : α → Prop} (h : FailsOrGives fails gives r)
    (hfails : fails → fails') (hgives : ∀ a, gives a → gives' a) :
    FailsOrGives fails' gives' r := by
  cases r with
  | error e => exact hfails h
  | ok a => exact hgives a h

/-- A list fails where an item does, and else every item gives its own value. -/
theorem mapM {f : α → Except ε β} {fails : α → Prop} {gives : α → β → Prop}
    (h : ∀ a, FailsOrGives (fails a) (gives a) (f a)) (as : List α) :
    FailsOrGives (∃ a ∈ as, fails a) (List.Forall₂ gives as) (as.mapM f) := by
  induction as with
  | nil => exact .nil
  | cons a as ih =>
    have ha := h a
    rw [List.mapM_cons]
    cases hf : f a with
    | error e =>
      rw [hf] at ha
      exact ⟨a, List.mem_cons_self, ha⟩
    | ok b =>
      rw [hf] at ha
      refine ih.map ?_ fun bs hbs => .cons ha hbs
      rintro ⟨a', ha', hfails⟩
      exact ⟨a', List.mem_cons_of_mem a ha', hfails⟩

end FailsOrGives

/-! ## Scalar types -/

namespace Scalar

theorem ofName?_name (s : Scalar) : ofName? s.name = some s := by cases s <;> rfl

theorem ofName?_eq_some {name : String} {s : Scalar} : ofName? name = some s ↔ name = s.name := by
  constructor
  · intro h
    unfold ofName? at h
    exact (beq_iff_eq.mp (List.find?_some (p := fun s : Scalar => s.name == name) h)).symm
  · rintro rfl
    exact s.ofName?_name

/-- The text of a number is read as that number, or as the one nearest to it. -/
theorem ofFloatText_toText {n : JsonNumber} (hn : n.Valid) :
    Json.ofFloatText n.toText = n.double := by
  cases hn with
  | @int n hlow hhigh =>
    show Json.ofFloatText (toString n) = _
    have hshort : n.natAbs < 10 ^ 20 := by omega
    rw [Json.ofFloatText, Binary64.read?_toString hshort]
    rfl
  | @float x hx =>
    show Json.ofFloatText x.toText = _
    rw [Json.ofFloatText, Binary64.read?_toText hx]
    rfl

theorem HasShape.ne_null {s : Scalar} {v : Value} (h : s.HasShape v) : v ≠ .null := by
  rintro rfl
  cases h

/-- A value has a literal at a scalar type where the type represents it. -/
theorem coerce_spec (s : Scalar) (j : Json) :
    FailsOrGives (¬ s.Represents j)
      (fun v => s.Represents j ∧ s.HasShape v ∧
        (j.Valid → ∀ given, v.toJson given = s.settled j)) (s.coerce j) := by
  fun_cases Scalar.coerce s j with
  | case1 b => exact ⟨.boolean b, .boolean b, fun _ _ => rfl⟩
  | case2 n hfits =>
    rw [Json.fitsInt32, Bool.and_eq_true, decide_eq_true_eq, decide_eq_true_eq] at hfits
    refine ⟨.int hfits.1 hfits.2, .int hfits.1 hfits.2, fun _ given => ?_⟩
    show Json.ofIntText (toString n) = _
    rw [Json.ofIntText_toString (by omega), JsonNumber.narrowed, if_neg (by omega)]
    rfl
  | case3 n hfits =>
    intro h
    cases h with
    | int hlow hhigh =>
      refine hfits ?_
      rw [Json.fitsInt32, decide_eq_true hlow, decide_eq_true hhigh]
      rfl
  | case4 x =>
    intro h
    cases h
  | case5 n =>
    refine ⟨.float n, .float _, fun hj _ => ?_⟩
    cases hj with
    | number hn => exact ofFloatText_toText hn
  | case6 s => exact ⟨.idText s, .id s, fun _ _ => rfl⟩
  | case7 s => exact ⟨.string s, .string s, fun _ _ => rfl⟩
  | case8 n => exact ⟨.idNumber n, .id _, fun _ _ => rfl⟩
  | case9 s j hboolean hint _ hfloat hidText hstring hidNumber =>
    intro h
    cases h with
    | boolean b => exact hboolean b rfl rfl
    | int => exact hint _ rfl rfl
    | float n => exact hfloat n rfl rfl
    | idText s => exact hidText s rfl rfl
    | idNumber n => exact hidNumber n rfl rfl
    | string s => exact hstring s rfl rfl

end Scalar

/-! ## Named types -/

theorem Json.toValue_ne_null {j : Json} (hj : j ≠ .null) : j.toValue ≠ .null := by
  cases j with
  | null => exact absurd rfl hj
  | number n =>
    cases n with
    | int _ | float _ =>
      intro h
      cases h
  | bool _ | string _ | array _ | object _ =>
    intro h
    cases h

namespace TypeRef

/-- The value has a literal at the type, and this is one that the type asks for. -/
structure Suits (t : TypeRef) (j : Json) (v : Value) : Prop where
  clear : ¬ t.Clashes j
  shape : t.HasShape v
  null : v = .null → j = .null
  reads : j.Valid → ∀ given, v.toJson given = t.settled j

section Steps
variable {t : NamedType} {item inner : TypeRef} {j : Json} {js : List Json}

theorem clashes_named : (TypeRef.named t).Clashes j ↔ Rejects (.named t) j := by
  constructor
  · rintro ⟨u, k, hmeets, hrejects⟩
    cases hmeets
    exact hrejects
  · intro h
    exact ⟨_, _, .here _ _, h⟩

theorem coerce_named (t : NamedType) (hj : j ≠ .null) :
    (TypeRef.named t).coerce j = t.coerce j ∧ (TypeRef.named t).settled j = t.settled j := by
  cases j with
  | null => exact absurd rfl hj
  | _ => exact ⟨rfl, rfl⟩

/-- At a named type a value goes to the scalar type of that name, if there is one. -/
theorem named_suits (t : NamedType) (hj : j ≠ .null) :
    FailsOrGives ((TypeRef.named t).Clashes j) (Suits (.named t) j)
      ((TypeRef.named t).coerce j) := by
  obtain ⟨hcoerce, hsettled⟩ := coerce_named t hj
  rw [hcoerce, NamedType.coerce]
  cases hname : Scalar.ofName? t.name.text with
  | some s =>
    have hscalar := Scalar.ofName?_eq_some.mp hname
    refine (s.coerce_spec j).mono (fun h => clashes_named.mpr (.scalar hscalar hj h)) ?_
    rintro v ⟨hrepresents, hshape, hreads⟩
    refine ⟨?_, .scalar hscalar hshape, fun h => absurd h hshape.ne_null, ?_⟩
    · rw [clashes_named]
      intro h
      cases h with
      | @scalar _ s' _ hname' _ hnot =>
        have hsame := hname.symm.trans (Scalar.ofName?_eq_some.mpr hname')
        cases hsame
        exact hnot hrepresents
    · intro hvalid given
      rw [hsettled, NamedType.settled, hname]
      exact hreads hvalid given
  | none =>
    have hother : ∀ s : Scalar, t.name.text ≠ s.name := by
      intro s h
      rw [h, s.ofName?_name] at hname
      cases hname
    refine ⟨?_, .other hother _, fun h => absurd h (Json.toValue_ne_null hj), ?_⟩
    · rw [clashes_named]
      intro h
      cases h with
      | scalar hscalar _ _ => exact hother _ hscalar
    · intro hvalid given
      rw [hsettled, NamedType.settled, hname]
      exact toJson_toValue hvalid given

/-- Null has the literal null, where it is allowed. -/
theorem null_suits {t : TypeRef} (ht : ∀ inner, t ≠ .nonNull inner) : Suits t .null .null := by
  refine ⟨?_, .null ht, fun _ => rfl, fun _ _ => ?_⟩
  · rintro ⟨u, k, hmeets, hrejects⟩
    cases hmeets with
    | here =>
      cases hrejects with
      | null inner => exact ht inner rfl
      | scalar _ hj _ => exact hj rfl
    | nonNull hj => exact hj rfl
    | single hj => exact hj.not_null rfl
  · cases t with
    | nonNull inner => exact absurd rfl (ht inner)
    | _ => rfl

theorem clashes_nonNull (hj : j ≠ .null) : (TypeRef.nonNull inner).Clashes j ↔ inner.Clashes j := by
  constructor
  · rintro ⟨u, k, hmeets, hrejects⟩
    cases hmeets with
    | here =>
      cases hrejects
      exact absurd rfl hj
    | nonNull _ h => exact ⟨u, k, h, hrejects⟩
  · rintro ⟨u, k, hmeets, hrejects⟩
    exact ⟨u, k, .nonNull hj hmeets, hrejects⟩

theorem clashes_array : (TypeRef.list item).Clashes (.array js) ↔ ∃ j ∈ js, item.Clashes j := by
  constructor
  · rintro ⟨u, k, hmeets, hrejects⟩
    cases hmeets with
    | here => cases hrejects
    | item hj h => exact ⟨_, hj, u, k, h, hrejects⟩
    | single hj => exact absurd rfl (hj.not_array js)
  · rintro ⟨j, hj, u, k, hmeets, hrejects⟩
    exact ⟨u, k, .item hj hmeets, hrejects⟩

theorem clashes_single (hj : j.Single) : (TypeRef.list item).Clashes j ↔ item.Clashes j := by
  constructor
  · rintro ⟨u, k, hmeets, hrejects⟩
    cases hmeets with
    | here => cases hrejects
    | item => exact absurd rfl (hj.not_array _)
    | single _ h => exact ⟨u, k, h, hrejects⟩
  · rintro ⟨u, k, hmeets, hrejects⟩
    exact ⟨u, k, .single hj hmeets, hrejects⟩

theorem coerce_nonNull (inner : TypeRef) (hj : j ≠ .null) :
    (TypeRef.nonNull inner).coerce j = inner.coerce j ∧
      (TypeRef.nonNull inner).settled j = inner.settled j := by
  cases j with
  | null => exact absurd rfl hj
  | _ => exact ⟨rfl, rfl⟩

theorem coerce_single (hj : j.Single) :
    (TypeRef.list item).coerce j = (do return .list [← item.coerce j]) ∧
      (TypeRef.list item).settled j = .array [item.settled j] := by
  cases j with
  | null => exact absurd rfl hj.not_null
  | array items => exact absurd rfl (hj.not_array items)
  | _ => exact ⟨rfl, rfl⟩

theorem list_ne_null {vs : List Value} : Value.list vs ≠ .null := by
  intro h
  cases h

theorem array_suits {vs : List Value} (h : List.Forall₂ (Suits item) js vs) :
    Suits (.list item) (.array js) (.list vs) := by
  have hitems : (∀ j ∈ js, ¬ item.Clashes j) ∧ (∀ v ∈ vs, item.HasShape v) ∧
      ((∀ j ∈ js, j.Valid) → ∀ given, Value.toJsonList given vs = js.map item.settled) := by
    induction h with
    | nil => exact ⟨List.forall_mem_nil _, List.forall_mem_nil _, fun _ _ => rfl⟩
    | @cons j v js vs hv _ ih =>
      obtain ⟨hclear, hshape, hreads⟩ := ih
      refine ⟨List.forall_mem_cons.mpr ⟨hv.clear, hclear⟩,
        List.forall_mem_cons.mpr ⟨hv.shape, hshape⟩, fun hvalid given => ?_⟩
      obtain ⟨hj, hjs⟩ := List.forall_mem_cons.mp hvalid
      rw [Value.toJsonList, hv.reads hj, hreads hjs, List.map_cons]
  obtain ⟨hclear, hshape, hreads⟩ := hitems
  refine ⟨?_, .list hshape, fun h => absurd h list_ne_null, fun hvalid given => ?_⟩
  · rw [clashes_array]
    rintro ⟨j, hj, hclash⟩
    exact hclear j hj hclash
  · cases hvalid with
    | array hjs =>
      rw [Value.toJson, hreads hjs]
      rfl

theorem single_suits {v : Value} (hj : j.Single) (hv : Suits item j v) :
    Suits (.list item) j (.list [v]) := by
  refine ⟨mt (clashes_single hj).mp hv.clear, .list (List.forall_mem_singleton.mpr hv.shape),
    fun h => absurd h list_ne_null, fun hvalid given => ?_⟩
  rw [(coerce_single hj).2, Value.toJson, Value.toJsonList, hv.reads hvalid]
  rfl

end Steps

/-- A value has a literal at a type unless they clash, and then it is one that the type asks
for. -/
theorem coerce_suits (t : TypeRef) (j : Json) :
    FailsOrGives (t.Clashes j) (Suits t j) (t.coerce j) := by
  induction t generalizing j with
  | named t =>
    by_cases hj : j = .null
    · subst hj
      exact null_suits nofun
    · exact named_suits t hj
  | nonNull inner ih =>
    by_cases hj : j = .null
    · subst hj
      exact ⟨_, _, .here _ _, .null inner⟩
    · obtain ⟨hcoerce, hsettled⟩ := coerce_nonNull inner hj
      rw [hcoerce]
      refine (ih j).mono (clashes_nonNull hj).mpr fun v hv => ?_
      refine ⟨mt (clashes_nonNull hj).mp hv.clear, .nonNull (mt hv.null hj) hv.shape, hv.null, ?_⟩
      rw [hsettled]
      exact hv.reads
  | list item ih =>
    by_cases hnull : j = .null
    · subst hnull
      exact null_suits nofun
    · by_cases harray : ∃ js, j = .array js
      · obtain ⟨js, rfl⟩ := harray
        exact (FailsOrGives.mapM ih js).map clashes_array.mpr fun vs hvs => array_suits hvs
      · have hj : j.Single := ⟨hnull, not_exists.mp harray⟩
        rw [(coerce_single hj).1]
        exact (ih j).map (clashes_single hj).mpr fun v hv => single_suits hj hv

end TypeRef

/-- A value has no literal at a type just where a part of it is rejected by the type that it
meets. A literal that it has is one of those of the type, and it is read back as the value in
the form that the type asks for. -/
theorem coerce_iff_meets {j : Json} (hj : j.Valid) (t : TypeRef) :
    ((∃ e, t.coerce j = .error e) ↔ ∃ u k, t.Meets j u k ∧ u.Rejects k) ∧
      ∀ v, t.coerce j = .ok v → t.HasShape v ∧ ∀ given, v.toJson given = t.settled j := by
  have hresult := t.coerce_suits j
  constructor
  · constructor
    · rintro ⟨e, he⟩
      rw [he] at hresult
      exact hresult
    · intro hclash
      cases hcoerce : t.coerce j with
      | error e => exact ⟨e, rfl⟩
      | ok v =>
        rw [hcoerce] at hresult
        exact absurd hclash hresult.clear
  · intro v hv
    rw [hv] at hresult
    exact ⟨hresult.shape, hresult.reads hj⟩

/-- Lists of identifiers without null. -/
def identifiers : TypeRef := .list (.nonNull (.named ⟨⟨"ID"⟩⟩))

/-- An identifier that is a number is no list of identifiers, but stands for one. -/
theorem coerce_iff_meets_identifiers :
    (Json.array [.number (.int 5), .null]).Valid ∧ (Json.number (.int 5)).Valid ∧
      (∃ e, identifiers.coerce (.array [.number (.int 5), .null]) = .error e) ∧
      identifiers.coerce (.number (.int 5)) = .ok (.list [.string "5" false]) ∧
      identifiers.HasShape (.list [.string "5" false]) ∧
      (Value.list [.string "5" false]).toJson [] = .array [.string "5"] := by
  have hfive : (Json.number (.int 5)).Valid := .number (.int (by decide) (by decide))
  have hlist : (Json.array [.number (.int 5), .null]).Valid := by
    refine .array (List.forall_mem_cons.mpr ⟨hfive, ?_⟩)
    exact List.forall_mem_singleton.mpr .null
  have herror := (coerce_iff_meets hlist identifiers).1.mpr
    ⟨_, _, .item (List.mem_cons_of_mem _ List.mem_cons_self) (.here _ _), .null _⟩
  have hvalue : identifiers.coerce (.number (.int 5)) = .ok (.list [.string "5" false]) := rfl
  obtain ⟨hshape, hread⟩ := (coerce_iff_meets hfive identifiers).2 _ hvalue
  exact ⟨hlist, hfive, herror, hvalue, hshape, hread []⟩

end QueryDoc
