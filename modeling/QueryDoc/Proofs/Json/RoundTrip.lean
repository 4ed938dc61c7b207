import QueryDoc.Proofs.Json.Numbers
import QueryDoc.Proofs.Json.Validity

/-! JSON values through literals. The literal of a JSON value has that value again, except
that an integer above the largest one of 64 bits with a sign comes back as the string of its
digits: the digits of an integer are read as that integer, the text of a floating-point number
as that number, and the fields of an object are put back where its members were. -/
namespace QueryDoc

/-! ## Large integers -/

/-- A number as the literal of it is read: an integer above the largest one of 64 bits with a
sign is the string of its digits. -/
def JsonNumber.narrowed : JsonNumber → Json
  | .int n => if 9223372036854775807 < n then .string (toString n) else .number (.int n)
  | .float x => .number (.float x)

mutual

/-- The same value with every large integer in it, at every depth, as the string of its
digits. -/
def Json.narrowed : Json → Json
  | .number n => n.narrowed
  | .array items => .array (Json.narrowedList items)
  | .object members => .object (Json.narrowedMembers members)
  | .null => .null
  | .bool b => .bool b
  | .string s => .string s

def Json.narrowedList : List Json → List Json
  | [] => []
  | j :: js => j.narrowed :: Json.narrowedList js

def Json.narrowedMembers : List JsonMember → List JsonMember
  | [] => []
  | ⟨key, j⟩ :: ms => ⟨key, j.narrowed⟩ :: Json.narrowedMembers ms

end

namespace Json
open Numeral Binary64

/-! ## Numbers -/

theorem ofIntText_toString {n : Int} (hlow : -9223372036854775808 ≤ n) :
    ofIntText (toString n) = JsonNumber.narrowed (.int n) := by
  rw [ofIntText_of_spells (spells_toString n)]
  simp only [JsonNumber.narrowed]
  by_cases hlarge : 9223372036854775807 < n
  · have hfits : ¬ fitsInt64 n = true := by simp [fitsInt64, hlarge]
    rw [if_neg hfits, if_pos hlarge]
  · have hfits : fitsInt64 n = true := by
      rw [fitsInt64, decide_eq_true hlow, decide_eq_true (not_lt.mp hlarge), Bool.and_true]
    rw [if_pos hfits, if_neg hlarge]

/-- The literal of a number is read as that number, unless it is a large integer. -/
theorem toJson_number {n : JsonNumber} (hn : n.Valid) (given : Variables) :
    n.toValue.toJson given = n.narrowed := by
  cases hn with
  | int hlow _ => exact ofIntText_toString hlow
  | @float x hx =>
    show ofFloatText x.toText = _
    rw [ofFloatText, read?_toText hx]
    rfl

/-! ## Lists and members -/

theorem toJsonList_toValueList (given : Variables) (js : List Json) :
    Value.toJsonList given (toValueList js) = js.map fun j => j.toValue.toJson given := by
  induction js with
  | nil => rfl
  | cons j js ih => rw [toValueList, Value.toJsonList, ih, List.map_cons]

theorem toJsonFields_toValueMembers (given : Variables) (ms : List JsonMember) :
    Value.toJsonFields given (toValueMembers ms) =
      ms.map fun m => (m.key, m.value.toValue.toJson given) := by
  induction ms with
  | nil => rfl
  | cons m ms ih =>
    obtain ⟨key, j⟩ := m
    rw [toValueMembers, Value.toJsonFields, ih, List.map_cons]

theorem narrowedList_eq (js : List Json) : narrowedList js = js.map narrowed := by
  induction js with
  | nil => rfl
  | cons j js ih => rw [narrowedList, ih, List.map_cons]

theorem narrowedMembers_eq (ms : List JsonMember) :
    narrowedMembers ms = ms.map fun m => ⟨m.key, m.value.narrowed⟩ := by
  induction ms with
  | nil => rfl
  | cons m ms ih =>
    obtain ⟨key, j⟩ := m
    rw [narrowedMembers, ih, List.map_cons]

/-- A member with a key after all others is put in at the end. -/
theorem insert_last {key : String} {value : Json} {ms : List JsonMember}
    (h : ∀ m ∈ ms, m.key < key) : insert key value ms = ms ++ [⟨key, value⟩] := by
  induction ms with
  | nil => rfl
  | cons m ms ih =>
    obtain ⟨hm, hms⟩ := List.forall_mem_cons.mp h
    rw [insert, if_neg (String.lt_asymm hm), if_neg (String.ne_of_lt hm).symm, ih hms,
      List.cons_append]

theorem foldl_insert_sorted {ms : List JsonMember} (start : List JsonMember)
    (h : ((start ++ ms).map (·.key)).Pairwise (· < ·)) :
    (ms.map fun m => (m.key, m.value)).foldl (fun start m => insert m.1 m.2 start) start =
      start ++ ms := by
  induction ms generalizing start with
  | nil =>
    rw [List.append_nil]
    rfl
  | cons m ms ih =>
    obtain ⟨key, value⟩ := m
    have hlast : ∀ m ∈ start, m.key < key := by
      intro m hm
      rw [List.map_append, List.map_cons] at h
      exact (List.pairwise_append.mp h).2.2 _ (List.mem_map_of_mem hm) _ List.mem_cons_self
    rw [List.append_cons] at h ⊢
    rw [List.map_cons, List.foldl_cons, insert_last hlast, ih _ h]

/-- Members that are sorted already are the members of the object that is made of them. -/
theorem ofMembers_sorted {ms : List JsonMember} (h : (ms.map (·.key)).Pairwise (· < ·)) :
    ofMembers (ms.map fun m => (m.key, m.value)) = .object ms := by
  rw [ofMembers_eq, foldl_insert_sorted [] h, List.nil_append]

end Json

/-! ## Values -/

/-- The literal of a JSON value has that value, with its large integers as the strings of
their digits, whatever variables are given. -/
theorem toJson_toValue {j : Json} (h : j.Valid) (given : Variables) :
    j.toValue.toJson given = j.narrowed := by
  induction h with
  | null => rfl
  | bool b => rfl
  | number hn => exact Json.toJson_number hn given
  | string s => rfl
  | array hitems ih =>
    rw [Json.toValue, Value.toJson, Json.narrowed, Json.toJsonList_toValueList,
      Json.narrowedList_eq]
    exact congrArg Json.array (List.map_congr_left ih)
  | @object members hsorted hmembers ih =>
    have hkeys : (Json.narrowedMembers members).map (·.key) = members.map (·.key) := by
      rw [Json.narrowedMembers_eq, List.map_map]
      rfl
    rw [Json.toValue, Value.toJson, Json.narrowed, Json.toJsonFields_toValueMembers,
      ← Json.ofMembers_sorted (hkeys ▸ hsorted), Json.narrowedMembers_eq, List.map_map]
    refine congrArg Json.ofMembers (List.map_congr_left ?_)
    intro m hm
    exact congrArg (Prod.mk m.key) (ih m hm)

/-- The number one and a half. -/
def oneAndHalf : Binary64 := ⟨false, 6755399441055744, -52⟩

/-- A list of the largest integer that a value can hold and a floating-point number. -/
def largeAndSmall : Json :=
  .object [⟨"items", .array [.number (.int 18446744073709551615), .number (.float oneAndHalf)]⟩]

theorem toJson_toValue_largeAndSmall :
    largeAndSmall.Valid ∧ largeAndSmall.toValue.toJson [] =
      .object
        [⟨"items", .array [.string "18446744073709551615", .number (.float oneAndHalf)]⟩] := by
  have hfloat : oneAndHalf.Canonical := ⟨by decide, by decide, by decide, .inl (by decide)⟩
  have hvalid : largeAndSmall.Valid := by
    refine .object (List.pairwise_singleton _ _) ?_
    refine List.forall_mem_singleton.mpr (.array ?_)
    refine List.forall_mem_cons.mpr ⟨.number (.int (by decide) (by decide)), ?_⟩
    exact List.forall_mem_singleton.mpr (.number (.float hfloat))
  exact ⟨hvalid, (toJson_toValue hvalid []).trans rfl⟩

end QueryDoc
