import QueryDoc.Json.Text
import QueryDoc.Proofs.Decimal.Canonical

/-! JSON values that can be held. A number of a value is an integer of 64 bits or a
floating-point number, and the members of an object are sorted by their keys. Every value that
is read from a text is one of these: its integers have no more digits than are collected, the
other numbers come out of operations that round, and members are put in where they belong. -/
namespace QueryDoc

/-- An integer has 64 bits, with a sign or without one, and a floating-point number is held in
its one form. -/
inductive JsonNumber.Valid : JsonNumber → Prop where
  | int {n : Int} (hlow : -9223372036854775808 ≤ n) (hhigh : n ≤ 18446744073709551615) :
      Valid (.int n)
  | float {x : Binary64} (hx : x.Canonical) : Valid (.float x)

/-- Every number in the value is one that can be held, and the members of every object are
sorted by their keys, each key once. -/
inductive Json.Valid : Json → Prop where
  | null : Valid .null
  | bool (b : Bool) : Valid (.bool b)
  | number {n : JsonNumber} (hn : n.Valid) : Valid (.number n)
  | string (s : String) : Valid (.string s)
  | array {items : List Json} (hitems : ∀ j ∈ items, Valid j) : Valid (.array items)
  | object {members : List JsonMember} (hsorted : (members.map (·.key)).Pairwise (· < ·))
      (hmembers : ∀ m ∈ members, Valid m.value) : Valid (.object members)

namespace Json

/-! ## Numbers that are read -/

theorem ten_pow_pos (n : Nat) : 0 < Nat.pow 10 n := Nat.pow_pos (by decide)

theorem scaleBy_canonical {x y : Binary64} {exponent : Int} (hx : x.Canonical)
    (h : scaleBy x exponent = some y) : y.Canonical := by
  induction x, exponent using scaleBy.induct with
  | case1 x exponent hzero =>
    rw [scaleBy, if_pos hzero] at h
    cases h
    exact hx
  | case2 x exponent hzero hsmall =>
    rw [scaleBy, if_neg hzero, if_pos hsmall] at h
    obtain ⟨power, hpower, h⟩ := Option.bind_eq_some_iff.mp h
    have hpos := Binary64.ofNat_pos (ten_pow_pos _) hpower
    split at h
    · exact Binary64.mul_canonical h
    · exact Binary64.div_canonical hpos h
  | case3 x exponent hzero hlarge hexponent =>
    rw [scaleBy, if_neg hzero, if_neg hlarge, if_pos hexponent] at h
    cases h
  | case4 x exponent hzero hlarge hexponent ih =>
    rw [scaleBy, if_neg hzero, if_neg hlarge, if_neg hexponent] at h
    obtain ⟨power, hpower, h⟩ := Option.bind_eq_some_iff.mp h
    obtain ⟨z, hz, h⟩ := Option.bind_eq_some_iff.mp h
    have hpos := Binary64.ofNat_pos (ten_pow_pos _) hpower
    exact ih z (Binary64.div_canonical hpos hz) h

theorem float?_valid {negative : Bool} {significand : Nat} {exponent : Int} {n : JsonNumber}
    (h : float? negative significand exponent = some n) : n.Valid := by
  obtain ⟨x, hx, h⟩ := Option.bind_eq_some_iff.mp h
  obtain ⟨y, hy, h⟩ := Option.bind_eq_some_iff.mp h
  cases h
  exact .float (scaleBy_canonical (Binary64.ofNat_canonical hx) hy)

theorem assemble_valid {negative : Bool} {significand : Nat} {shift : Int}
    {exponent : Option (Bool × Nat)} {n : JsonNumber}
    (h : assemble negative significand shift exponent = some n) : n.Valid := by
  unfold assemble at h
  split at h
  · exact float?_valid h
  · split at h
    · rw [Option.ite_none_left_eq_some] at h
      obtain ⟨-, h⟩ := h
      cases h
      exact .float (Binary64.canonical_zero negative)
    · exact float?_valid h

theorem integer_valid {negative : Bool} {k : Nat} {n : JsonNumber} (hk : k ≤ maxCollected)
    (h : integer negative k = some n) : n.Valid := by
  have hmax : maxCollected = 18446744073709551615 := rfl
  have hmin : Nat.pow 2 63 = 9223372036854775808 := rfl
  unfold integer at h
  split at h
  · cases h
    exact .int (by omega) (by omega)
  · split at h
    · obtain ⟨x, hx, rfl⟩ := Option.map_eq_some_iff.mp h
      exact .float (Binary64.ofNat_canonical hx)
    · cases h
      exact .int (by omega) (by omega)

theorem collect_le {acc : Nat} (hacc : acc ≤ maxCollected) (cs : List Char) :
    (collect acc cs).1 ≤ maxCollected := by
  induction cs generalizing acc with
  | nil => exact hacc
  | cons c cs ih =>
    rw [collect]
    split
    · next h => exact ih h
    · exact hacc

theorem readNumber_valid {cs rest : List Char} {n : JsonNumber}
    (h : readNumber cs = some (n, rest)) : n.Valid := by
  unfold readNumber at h
  split at h
  dsimp only at h
  rw [Option.ite_none_left_eq_some] at h
  obtain ⟨-, h⟩ := h
  have hwhole := collect_le (Nat.zero_le maxCollected)
  split at h
  · rw [Option.ite_none_left_eq_some] at h
    obtain ⟨-, h⟩ := h
    obtain ⟨⟨exponent, rest'⟩, -, h⟩ := Option.bind_eq_some_iff.mp h
    obtain ⟨k, hk, h⟩ := Option.bind_eq_some_iff.mp h
    cases h
    exact assemble_valid hk
  · obtain ⟨⟨exponent, rest'⟩, -, h⟩ := Option.bind_eq_some_iff.mp h
    dsimp only at h
    split at h
    · obtain ⟨k, hk, h⟩ := Option.bind_eq_some_iff.mp h
      cases h
      exact assemble_valid hk
    · split at h
      · obtain ⟨k, hk, h⟩ := Option.bind_eq_some_iff.mp h
        cases h
        exact integer_valid (hwhole _) hk
      · obtain ⟨k, hk, h⟩ := Option.bind_eq_some_iff.mp h
        cases h
        exact float?_valid hk

/-! ## Members -/

theorem mem_insert {key : String} {value : Json} {ms : List JsonMember} {m : JsonMember}
    (h : m ∈ insert key value ms) : m = ⟨key, value⟩ ∨ m ∈ ms := by
  induction ms with
  | nil => exact .inl (List.mem_singleton.mp h)
  | cons m' ms ih =>
    rw [insert] at h
    split at h
    · exact List.mem_cons.mp h
    · split at h
      · exact (List.mem_cons.mp h).imp_right (List.mem_cons_of_mem m')
      · rcases List.mem_cons.mp h with rfl | h
        · exact .inr List.mem_cons_self
        · exact (ih h).imp_right (List.mem_cons_of_mem m')

theorem insert_sorted {key : String} {value : Json} {ms : List JsonMember}
    (h : (ms.map (·.key)).Pairwise (· < ·)) :
    ((insert key value ms).map (·.key)).Pairwise (· < ·) := by
  induction ms with
  | nil => exact List.pairwise_singleton _ _
  | cons m ms ih =>
    rw [List.map_cons, List.pairwise_cons] at h
    obtain ⟨hm, hms⟩ := h
    rw [insert]
    split
    · next hless =>
      refine List.pairwise_cons.mpr ⟨?_, List.pairwise_cons.mpr ⟨hm, hms⟩⟩
      intro k hk
      rcases List.mem_cons.mp hk with rfl | hk
      · exact hless
      · exact String.lt_trans hless (hm k hk)
    · split
      · next heq =>
        subst heq
        exact List.pairwise_cons.mpr ⟨hm, hms⟩
      · next hnot hne =>
        have hgreater : m.key < key :=
          String.not_le.mp fun hle => hne (String.le_antisymm hle (String.not_lt.mp hnot))
        refine List.pairwise_cons.mpr ⟨?_, ih hms⟩
        intro k hk
        obtain ⟨m', hm', rfl⟩ := List.mem_map.mp hk
        rcases mem_insert hm' with rfl | hm'
        · exact hgreater
        · exact hm _ (List.mem_map_of_mem hm')

theorem ofMembers_eq (ms : List (String × Json)) :
    ofMembers ms = .object (ms.foldl (fun start m => insert m.1 m.2 start) []) := rfl

/-- An object that is made of values that can be held is one itself. -/
theorem ofMembers_valid {ms : List (String × Json)} (h : ∀ m ∈ ms, m.2.Valid) :
    (ofMembers ms).Valid := by
  have hfold : ∀ start : List JsonMember, (start.map (·.key)).Pairwise (· < ·) →
      (∀ m ∈ start, m.value.Valid) →
      (object (ms.foldl (fun start m => insert m.1 m.2 start) start)).Valid := by
    induction ms with
    | nil => exact fun start hsorted hstart => .object hsorted hstart
    | cons m ms ih =>
      obtain ⟨hm, hms⟩ := List.forall_mem_cons.mp h
      intro start hsorted hstart
      refine ih hms _ (insert_sorted hsorted) fun m' hm' => ?_
      rcases mem_insert hm' with rfl | hm'
      · exact hm
      · exact hstart m' hm'
  rw [ofMembers_eq]
  exact hfold [] .nil (List.forall_mem_nil _)

/-! ## Texts -/

/-- What is read with some fuel can be held. -/
structure ReadsValid (fuel : Nat) : Prop where
  value : ∀ cs j rest, readValue fuel cs = some (j, rest) → j.Valid
  items : ∀ cs js rest, readItems fuel cs = some (js, rest) → ∀ j ∈ js, j.Valid
  members : ∀ cs ms rest, readMembers fuel cs = some (ms, rest) → ∀ m ∈ ms, m.2.Valid

namespace ReadsValid
variable {fuel : Nat} (ih : ReadsValid fuel) {cs rest : List Char}
include ih

theorem readValue_succ {j : Json} (h : readValue (fuel + 1) cs = some (j, rest)) : j.Valid := by
  rw [readValue] at h
  split at h
  · obtain ⟨_, -, h⟩ := Option.map_eq_some_iff.mp h
    cases h
    exact .null
  · obtain ⟨_, -, h⟩ := Option.map_eq_some_iff.mp h
    cases h
    exact .bool true
  · obtain ⟨_, -, h⟩ := Option.map_eq_some_iff.mp h
    cases h
    exact .bool false
  · obtain ⟨⟨s, _⟩, -, h⟩ := Option.map_eq_some_iff.mp h
    cases h
    exact .string s
  · split at h
    · cases h
      exact .array (List.forall_mem_nil _)
    · obtain ⟨⟨items, _⟩, hitems, h⟩ := Option.map_eq_some_iff.mp h
      cases h
      exact .array (ih.items _ _ _ hitems)
  · split at h
    · cases h
      exact .object .nil (List.forall_mem_nil _)
    · obtain ⟨⟨members, _⟩, hmembers, h⟩ := Option.map_eq_some_iff.mp h
      cases h
      exact ofMembers_valid (ih.members _ _ _ hmembers)
  · obtain ⟨⟨n, _⟩, hn, h⟩ := Option.map_eq_some_iff.mp h
    cases h
    exact .number (readNumber_valid hn)

theorem readItems_succ {js : List Json} (h : readItems (fuel + 1) cs = some (js, rest)) :
    ∀ j ∈ js, j.Valid := by
  rw [readItems] at h
  obtain ⟨⟨item, more⟩, hitem, h⟩ := Option.bind_eq_some_iff.mp h
  have hvalid := ih.value _ _ _ hitem
  dsimp only at h
  -- After an item come others, or the array ends.
  split at h
  · obtain ⟨⟨items, _⟩, hitems, h⟩ := Option.bind_eq_some_iff.mp h
    cases h
    exact List.forall_mem_cons.mpr ⟨hvalid, ih.items _ _ _ hitems⟩
  · cases h
    exact List.forall_mem_singleton.mpr hvalid
  · cases h

theorem readMembers_succ {ms : List (String × Json)}
    (h : readMembers (fuel + 1) cs = some (ms, rest)) : ∀ m ∈ ms, m.2.Valid := by
  rw [readMembers] at h
  obtain ⟨⟨key, more⟩, -, h⟩ := Option.bind_eq_some_iff.mp h
  dsimp only at h
  split at h
  · obtain ⟨⟨value, _⟩, hvalue, h⟩ := Option.bind_eq_some_iff.mp h
    have hvalid := ih.value _ _ _ hvalue
    dsimp only at h
    split at h
    · obtain ⟨⟨members, _⟩, hmembers, h⟩ := Option.bind_eq_some_iff.mp h
      cases h
      exact List.forall_mem_cons.mpr ⟨hvalid, ih.members _ _ _ hmembers⟩
    · cases h
      exact List.forall_mem_singleton.mpr hvalid
    · cases h
  · cases h

end ReadsValid

theorem readsValid (fuel : Nat) : ReadsValid fuel := by
  induction fuel with
  | zero => exact ⟨nofun, nofun, nofun⟩
  | succ fuel ih =>
    exact ⟨fun _ _ _ => ih.readValue_succ, fun _ _ _ => ih.readItems_succ,
      fun _ _ _ => ih.readMembers_succ⟩

/-- Every value that is read from a text can be held. -/
theorem valid_of_parse {source : String} {j : Json} (h : parse source = some j) : j.Valid := by
  obtain ⟨⟨value, rest⟩, hvalue, h⟩ := Option.bind_eq_some_iff.mp h
  dsimp only at h
  split at h
  · cases h
    exact (readsValid _).value _ _ _ hvalue
  · cases h

end Json
end QueryDoc
