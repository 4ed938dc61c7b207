import QueryDoc.Proofs.Json.RoundTrip

/-! Variables before and after conversion. A literal may be given values for its variables
while it is converted, or have literals put in their places and be converted without any: the
JSON is the same, up to the integers that the way through a literal turns into strings. -/
namespace QueryDoc

/-! ## Literals in the places of variables -/

/-- The literal of the value that is given for a variable, and null where none is given. -/
def Variable.literal (given : Variables) (x : Variable) : Value :=
  match Json.lookup x.name.text given with
  | some j => j.toValue
  | none => .null

mutual

/-- The same literal with a literal in place of each variable in it, at every depth. -/
def Value.replace (literal : Variable → Value) : Value → Value
  | .variable x => literal x
  | .list vs => .list (Value.replaceList literal vs)
  | .object fs => .object (Value.replaceFields literal fs)
  | .null => .null
  | .boolean b => .boolean b
  | .int text => .int text
  | .float text => .float text
  | .string content block => .string content block
  | .enum text => .enum text

def Value.replaceList (literal : Variable → Value) : List Value → List Value
  | [] => []
  | v :: vs => v.replace literal :: Value.replaceList literal vs

def Value.replaceFields (literal : Variable → Value) : List ObjectField → List ObjectField
  | [] => []
  | ⟨n, v⟩ :: fs => ⟨n, v.replace literal⟩ :: Value.replaceFields literal fs

end

section
variable {literal : Variable → Value} {given without : Variables}

mutual

/-- Where each variable's literal converts to what the variable itself converts to, so does
every literal with the variables replaced. -/
theorem Value.toJson_replace
    (h : ∀ x, (literal x).toJson without = (Value.variable x).toJson given) (v : Value) :
    (v.replace literal).toJson without = v.toJson given := by
  match v with
  | .variable x => exact h x
  | .list vs =>
    rw [Value.replace, Value.toJson, Value.toJson, Value.toJsonList_replaceList h vs]
  | .object fs =>
    rw [Value.replace, Value.toJson, Value.toJson, Value.toJsonFields_replaceFields h fs]
  | .null | .boolean _ | .int _ | .float _ | .string .. | .enum _ => rfl
termination_by structural v

theorem Value.toJsonList_replaceList
    (h : ∀ x, (literal x).toJson without = (Value.variable x).toJson given) (vs : List Value) :
    Value.toJsonList without (Value.replaceList literal vs) = Value.toJsonList given vs := by
  match vs with
  | [] => rfl
  | v :: vs =>
    rw [Value.replaceList, Value.toJsonList, Value.toJsonList, Value.toJson_replace h v,
      Value.toJsonList_replaceList h vs]
termination_by structural vs

theorem Value.toJsonFields_replaceFields
    (h : ∀ x, (literal x).toJson without = (Value.variable x).toJson given)
    (fs : List ObjectField) :
    Value.toJsonFields without (Value.replaceFields literal fs) =
      Value.toJsonFields given fs := by
  match fs with
  | [] => rfl
  | ⟨n, v⟩ :: fs =>
    rw [Value.replaceFields, Value.toJsonFields, Value.toJsonFields, Value.toJson_replace h v,
      Value.toJsonFields_replaceFields h fs]
termination_by structural fs

end

end

namespace Json

/-! ## What a variable's literal converts to -/

theorem valid_of_lookup {key : String} {ms : List JsonMember} {j : Json}
    (h : (Json.object ms).Valid) (hj : lookup key ms = some j) : j.Valid := by
  obtain ⟨m, hm, rfl⟩ := Option.map_eq_some_iff.mp hj
  cases h with
  | object _ hmembers => exact hmembers m (List.mem_of_find?_eq_some hm)

theorem lookup_narrowedMembers (key : String) (ms : List JsonMember) :
    lookup key (narrowedMembers ms) = (lookup key ms).map narrowed := by
  rw [narrowedMembers_eq, lookup, lookup, List.find?_map, Option.map_map, Option.map_map]
  rfl

/-- The literal of a variable is read as the variable's value, with its large integers as the
strings of their digits. -/
theorem toJson_literal {given : Variables} (h : (Json.object given).Valid) (x : Variable) :
    (x.literal given).toJson [] = (Value.variable x).toJson (narrowedMembers given) := by
  rw [Variable.literal, Value.toJson, lookup_narrowedMembers]
  cases hx : lookup x.name.text given with
  | none => rfl
  | some j => exact toJson_toValue (valid_of_lookup h hx) []

/-! ## Integers of 64 bits with a sign -/

/-- Every integer in the value, at every depth, has 64 bits with a sign. -/
inductive Narrow : Json → Prop where
  | null : Narrow .null
  | bool (b : Bool) : Narrow (.bool b)
  | int {n : Int} (hn : fitsInt64 n = true) : Narrow (.number (.int n))
  | float (x : Binary64) : Narrow (.number (.float x))
  | string (s : String) : Narrow (.string s)
  | array {items : List Json} (hitems : ∀ j ∈ items, Narrow j) : Narrow (.array items)
  | object {members : List JsonMember} (hmembers : ∀ m ∈ members, Narrow m.value) :
      Narrow (.object members)

theorem Narrow.narrowed_eq {j : Json} (h : j.Narrow) : j.narrowed = j := by
  induction h with
  | null => rfl
  | bool b => rfl
  | @int n hn =>
    have hsmall : ¬ 9223372036854775807 < n := by
      simp only [fitsInt64, Bool.and_eq_true, decide_eq_true_eq] at hn
      omega
    exact if_neg hsmall
  | float x => rfl
  | string s => rfl
  | @array items _ ih =>
    rw [narrowed, narrowedList_eq]
    exact congrArg Json.array ((List.map_congr_left ih).trans (List.map_id items))
  | @object members _ ih =>
    rw [narrowed, narrowedMembers_eq]
    refine congrArg Json.object ((List.map_congr_left ?_).trans (List.map_id members))
    intro m hm
    obtain ⟨key, j⟩ := m
    exact congrArg (JsonMember.mk key) (ih ⟨key, j⟩ hm)

end Json

namespace Value

/-- Putting in the literals of the variables and converting without any is converting with the
given values, their large integers as strings. -/
theorem toJson_replace_literal {given : Variables} (h : (Json.object given).Valid) (v : Value) :
    (v.replace (Variable.literal given)).toJson [] = v.toJson (Json.narrowedMembers given) :=
  toJson_replace (Json.toJson_literal h) v

/-- Where every integer in the given values has 64 bits with a sign, a literal converts to the
same JSON whether its variables have values or literals stand in their places. -/
theorem toJson_replace_eq_toJson {given : Variables} (h : (Json.object given).Valid)
    (hnarrow : (Json.object given).Narrow) (v : Value) :
    (v.replace (Variable.literal given)).toJson [] = v.toJson given := by
  have hgiven : Json.narrowedMembers given = given := Json.object.inj hnarrow.narrowed_eq
  rw [toJson_replace_literal h, hgiven]

/-- Values for two variables, a nested one and the smallest integer. -/
def nestedAndSmallest : Variables :=
  [⟨"a", .object [⟨"items", .array [.number (.int 1), .number (.float oneAndHalf)]⟩]⟩,
    ⟨"b", .number (.int (-9223372036854775808))⟩]

/-- An object with one name twice and with a variable that has no value. -/
def sameNameTwice : Value :=
  .object [⟨⟨"x"⟩, .variable ⟨⟨"b"⟩⟩⟩,
    ⟨⟨"x"⟩, .list [.variable ⟨⟨"c"⟩⟩, .list [.variable ⟨⟨"a"⟩⟩], .variable ⟨⟨"b"⟩⟩]⟩]

theorem toJson_replace_nestedAndSmallest :
    (Json.object nestedAndSmallest).Valid ∧ (Json.object nestedAndSmallest).Narrow ∧
      (sameNameTwice.replace (Variable.literal nestedAndSmallest)).toJson [] =
        .object [⟨"x", .array [.null,
          .array [.object [⟨"items", .array [.number (.int 1), .number (.float oneAndHalf)]⟩]],
          .number (.int (-9223372036854775808))]⟩] := by
  have hfloat : oneAndHalf.Canonical := ⟨by decide, by decide, by decide, .inl (by decide)⟩
  have hvalid : (Json.object nestedAndSmallest).Valid := by
    refine .object (by decide) (List.forall_mem_cons.mpr ⟨?_, List.forall_mem_singleton.mpr ?_⟩)
    · refine .object (List.pairwise_singleton _ _) (List.forall_mem_singleton.mpr (.array ?_))
      refine List.forall_mem_cons.mpr ⟨.number (.int (by decide) (by decide)), ?_⟩
      exact List.forall_mem_singleton.mpr (.number (.float hfloat))
    · exact .number (.int (by decide) (by decide))
  have hnarrow : (Json.object nestedAndSmallest).Narrow := by
    refine .object (List.forall_mem_cons.mpr ⟨?_, List.forall_mem_singleton.mpr ?_⟩)
    · refine .object (List.forall_mem_singleton.mpr (.array ?_))
      refine List.forall_mem_cons.mpr ⟨.int (by decide), ?_⟩
      exact List.forall_mem_singleton.mpr (.float oneAndHalf)
    · exact .int (by decide)
  exact ⟨hvalid, hnarrow, (toJson_replace_eq_toJson hvalid hnarrow sameNameTwice).trans rfl⟩

end Value
end QueryDoc
