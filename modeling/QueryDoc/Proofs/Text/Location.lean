import QueryDoc.Proofs.Text.Lines

/-! Places of a text and their locations. What stands before a place is also the beginning of
what stands before each later one, so going on in the text means going on in the same line or
in a later one; and the lines above with the characters before the column are all that stands
before the place. -/
namespace QueryDoc

/-! ## Places -/

/-- A place of a text: a UTF-8 offset between two of its characters, or at one of its ends. -/
def IsPlace (source : String) (offset : Nat) : Prop := (⟨offset⟩ : String.Pos.Raw).IsValid source

instance (source : String) (offset : Nat) : Decidable (IsPlace source offset) :=
  inferInstanceAs (Decidable ((⟨offset⟩ : String.Pos.Raw).IsValid source))

theorem IsPlace.exists_append {source : String} {offset : Nat} (h : IsPlace source offset) :
    ∃ before after : List Char, source.toList = before ++ after ∧ offset = utf8Length before := by
  obtain ⟨before, after, rfl, hoffset⟩ := String.Pos.Raw.isValid_iff_exists_append.mp h
  refine ⟨before.toList, after.toList, String.toList_append, ?_⟩
  rw [utf8Length_toList]
  exact congrArg String.Pos.Raw.byteIdx hoffset

/-- What stands before a place, and what stands between it and a later one. -/
theorem IsPlace.exists_between {source : String} {a b : Nat} (ha : IsPlace source a)
    (hb : IsPlace source b) (h : a ≤ b) :
    ∃ before between after : List Char, source.toList = before ++ (between ++ after) ∧
      a = utf8Length before ∧ b = utf8Length (before ++ between) := by
  obtain ⟨before, rest, hrest, rfl⟩ := ha.exists_append
  obtain ⟨front, after, hafter, rfl⟩ := hb.exists_append
  rcases List.append_eq_append_iff.mp (hrest.symm.trans hafter) with
    ⟨between, rfl, rfl⟩ | ⟨between, rfl, rfl⟩
  · exact ⟨before, between, after, hrest, rfl, rfl⟩
  -- The offsets are the other way round only where nothing stands between the places.
  · rw [utf8Length_append] at h
    have hempty : between = [] := utf8Length_eq_zero_iff.mp (by omega)
    rw [hempty, List.append_nil] at hrest ⊢
    exact ⟨front, [], rest, hrest, rfl, by rw [List.append_nil]⟩

/-- All of a text stands before an offset at its end or past it. -/
theorem splitAtOffset_of_le {cs : List Char} {offset : Nat} (h : utf8Length cs ≤ offset) :
    splitAtOffset cs offset = (cs, []) := by
  induction cs generalizing offset with
  | nil => rfl
  | cons c cs ih =>
    rw [utf8Length] at h
    have hpos := c.utf8Size_pos
    obtain ⟨n, rfl⟩ : ∃ n, offset = n + 1 := ⟨offset - 1, by omega⟩
    rw [splitAtOffset, ih (by omega)]

namespace Location

theorem ofOffset_append {source : String} {before rest : List Char}
    (h : source.toList = before ++ rest) : ofOffset source (utf8Length before) = after before := by
  rw [ofOffset, h, splitAtOffset_append]

theorem ofOffset_between {source : String} {before between rest : List Char}
    (h : source.toList = before ++ (between ++ rest)) :
    ofOffset source (utf8Length (before ++ between)) = after (before ++ between) :=
  ofOffset_append (by rw [h, List.append_assoc])

/-! ## The order of locations -/

/-- Locations are in order by their lines, and on one line by their columns. -/
instance : LT Location where
  lt a b := a.line < b.line ∨ a.line = b.line ∧ a.column < b.column

theorem after_append (before : List Char) {more : List Char} (h : '\n' ∉ more) :
    after (before ++ more) = ⟨(after before).line, (after before).column + more.length⟩ := by
  rw [after, lastLine_append before h, List.count_append, List.count_eq_zero.mpr h,
    List.length_append]
  rfl

theorem after_lt_after_append (before : List Char) {more : List Char} (hne : more ≠ []) :
    after before < after (before ++ more) := by
  by_cases h : '\n' ∈ more
  · left
    have hpos : 0 < more.count '\n' := List.count_pos_iff.mpr h
    show before.count '\n' + 1 < (before ++ more).count '\n' + 1
    rw [List.count_append]
    omega
  · right
    have hpos : 0 < more.length := List.length_pos_iff.mpr hne
    rw [after_append before h]
    exact ⟨rfl, Nat.lt_add_of_pos_right hpos⟩

/-! ## The offset of a location -/

/-- The offset that a location leads to: past the lines above with their line feeds, and past the
characters of the line before the column. Where the text has no such line or the line is not as
long, there is none. -/
def offset? (source : String) (loc : Location) : Option Nat :=
  let lines := source.toList.splitOn '\n'
  lines[loc.line - 1]?.bind fun line =>
    if loc.column ≤ line.length then
      some (utf8Length
        ((lines.take (loc.line - 1)).flatMap (· ++ ['\n']) ++ line.take loc.column))
    else none

theorem offset?_after {source : String} {before rest : List Char}
    (h : source.toList = before ++ rest) :
    offset? source (after before) = some (utf8Length before) := by
  obtain ⟨above, hlength, habove, hlines⟩ := splitOn_before before
  have hline : (after before).line - 1 = before.count '\n' := rfl
  have hcolumn : (after before).column = (lastLine before).length := rfl
  have htake : ((before ++ rest).splitOn '\n').take (before.count '\n') = above := by
    rw [hlines, ← hlength, List.take_left]
  have hfits : (lastLine before).length ≤
      (lastLine before ++ rest.takeWhile (· ≠ '\n')).length := by
    rw [List.length_append]
    exact Nat.le_add_right _ _
  simp only [offset?, h, hline, hcolumn, getElem?_splitOn, htake]
  rw [Option.bind_some, if_pos hfits, List.take_left, habove]

/-- Locations tell the places of a text apart. Of two places the one further on has the later
location, the location of a place leads back to it, and whatever is past the end has the
location of the end. -/
theorem ofOffset_identifies (source : String) :
    (∀ a b, IsPlace source a → IsPlace source b → a < b → ofOffset source a < ofOffset source b) ∧
    (∀ a, IsPlace source a → offset? source (ofOffset source a) = some a) ∧
    ∀ past, source.utf8ByteSize < past →
      ofOffset source past = ofOffset source source.utf8ByteSize := by
  refine ⟨fun a b ha hb h => ?_, fun a ha => ?_, fun past h => ?_⟩
  · obtain ⟨before, between, rest, hsource, rfl, rfl⟩ := ha.exists_between hb (Nat.le_of_lt h)
    have hne : between ≠ [] := by
      rintro rfl
      rw [List.append_nil] at h
      exact Nat.lt_irrefl _ h
    rw [ofOffset_append hsource, ofOffset_between hsource]
    exact after_lt_after_append before hne
  · obtain ⟨before, rest, hsource, rfl⟩ := ha.exists_append
    rw [ofOffset_append hsource, offset?_after hsource]
  · rw [← utf8Length_toList] at h ⊢
    rw [ofOffset, ofOffset, splitAtOffset_of_le (Nat.le_of_lt h),
      splitAtOffset_of_le (Nat.le_refl _)]

/-- Places on an empty line, on a line with a letter of two bytes, and past the end. -/
theorem ofOffset_identifies_emptyLine :
    (IsPlace "é\n\nüb" 3 ∧ IsPlace "é\n\nüb" 6 ∧ 3 < 6 ∧ "é\n\nüb".utf8ByteSize < 9) ∧
      ofOffset "é\n\nüb" 3 < ofOffset "é\n\nüb" 6 ∧
      offset? "é\n\nüb" (ofOffset "é\n\nüb" 6) = some 6 ∧
      ofOffset "é\n\nüb" 9 = ofOffset "é\n\nüb" "é\n\nüb".utf8ByteSize := by
  have hthree : IsPlace "é\n\nüb" 3 := by decide
  have hsix : IsPlace "é\n\nüb" 6 := by decide
  have hpast : "é\n\nüb".utf8ByteSize < 9 := by decide
  obtain ⟨horder, hoffset, hend⟩ := ofOffset_identifies "é\n\nüb"
  exact ⟨⟨hthree, hsix, by decide, hpast⟩, horder 3 6 hthree hsix (by decide), hoffset 6 hsix,
    hend 9 hpast⟩

example : ofOffset "é\n\nüb" 3 = ⟨2, 0⟩ ∧ ofOffset "é\n\nüb" 6 = ⟨3, 1⟩ := by decide

end Location
end QueryDoc
