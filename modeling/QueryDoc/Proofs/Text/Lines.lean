import QueryDoc.Text.Snippet

/-! The lines of a text. A text is cut at its line feeds, and what stands before a place ends
in the last of its lines; so the place is on the line with that number, which goes on with
what comes after the place. -/
namespace QueryDoc

/-! ## Offsets -/

theorem utf8Length_append (cs ds : List Char) :
    utf8Length (cs ++ ds) = utf8Length cs + utf8Length ds := by
  induction cs with
  | nil => rw [List.nil_append, utf8Length, Nat.zero_add]
  | cons c cs ih => rw [List.cons_append, utf8Length, utf8Length, ih, Nat.add_assoc]

theorem utf8Length_le {cs ds : List Char} (h : cs <:+ ds) : utf8Length cs ≤ utf8Length ds := by
  obtain ⟨pre, rfl⟩ := h
  rw [utf8Length_append]
  exact Nat.le_add_left _ _

theorem utf8Length_pos {cs : List Char} (h : cs ≠ []) : 0 < utf8Length cs := by
  cases cs with
  | nil => exact absurd rfl h
  | cons c cs => exact Nat.add_pos_left c.utf8Size_pos _

theorem utf8Length_eq_zero_iff {cs : List Char} : utf8Length cs = 0 ↔ cs = [] := by
  constructor
  · intro h
    cases cs with
    | nil => rfl
    | cons c cs => exact absurd h (Nat.ne_of_gt (utf8Length_pos (List.cons_ne_nil c cs)))
  · rintro rfl
    rfl

theorem utf8Length_toList (s : String) : utf8Length s.toList = s.utf8ByteSize := by
  induction s using String.push_induction with
  | empty => rfl
  | push s c ih =>
    rw [String.toList_push, utf8Length_append, ih, String.utf8ByteSize_push]
    rfl

/-- A text is split at the size of its beginning into the beginning and the rest. -/
theorem splitAtOffset_append (before after : List Char) :
    splitAtOffset (before ++ after) (utf8Length before) = (before, after) := by
  induction before with
  | nil => cases after <;> rfl
  | cons c before ih =>
    obtain ⟨n, hn⟩ : ∃ n, utf8Length (c :: before) = n + 1 := by
      have := c.utf8Size_pos
      exact ⟨utf8Length (c :: before) - 1, by rw [utf8Length]; omega⟩
    have hrest : n + 1 - c.utf8Size = utf8Length before := by
      rw [← hn, utf8Length, Nat.add_sub_cancel_left]
    rw [List.cons_append, hn, splitAtOffset, hrest, ih]

/-! ## Cutting at line feeds -/

theorem Snippet.splitLines_eq (cs : List Char) : splitLines cs = cs.splitOn '\n' := by
  induction cs with
  | nil => rfl
  | cons c cs ih =>
    rw [splitLines, ih, List.splitOn_cons_eq_if_modifyHead]
    cases hlines : cs.splitOn '\n' with
    | nil => exact absurd hlines (List.splitOn_ne_nil _ _)
    | cons line lines => by_cases hc : c = '\n' <;> simp [hc]

theorem length_splitOn (cs : List Char) : (cs.splitOn '\n').length = cs.count '\n' + 1 := by
  induction cs with
  | nil => rfl
  | cons c cs ih =>
    rw [List.splitOn_cons_eq_if_modifyHead, List.count_cons]
    by_cases hc : c = '\n' <;> simp [hc, ih]

theorem head?_splitOn (cs : List Char) :
    (cs.splitOn '\n').head? = some (cs.takeWhile (· ≠ '\n')) := by
  induction cs with
  | nil => rfl
  | cons c cs ih =>
    rw [List.splitOn_cons_eq_if_modifyHead]
    by_cases hc : c = '\n' <;> simp [hc, List.head?_modifyHead, ih]

/-- No line has a line feed in it. -/
theorem notMem_of_mem_splitOn {cs line : List Char} (h : line ∈ cs.splitOn '\n') :
    '\n' ∉ line := by
  induction cs generalizing line with
  | nil =>
    rw [List.splitOn_nil, List.mem_singleton] at h
    rw [h]
    exact List.not_mem_nil
  | cons c cs ih =>
    rw [List.splitOn_cons_eq_if_modifyHead] at h
    cases hlines : cs.splitOn '\n' with
    | nil => exact absurd hlines (List.splitOn_ne_nil _ _)
    | cons first lines =>
      rw [hlines] at h ih
      by_cases hc : c = '\n'
      · simp only [hc, beq_self_eq_true, if_true, List.mem_cons] at h
        rcases h with rfl | h
        · exact List.not_mem_nil
        · exact ih (List.mem_cons.mpr h)
      · simp only [beq_iff_eq, hc, if_false, List.modifyHead_cons, List.mem_cons] at h
        rcases h with rfl | h
        · have := ih List.mem_cons_self
          simp [Ne.symm hc, this]
        · exact ih (List.mem_cons_of_mem first h)

theorem notMem_takeWhile (cs : List Char) : '\n' ∉ cs.takeWhile (· ≠ '\n') :=
  notMem_of_mem_splitOn (List.mem_of_mem_head? (head?_splitOn cs))

theorem ne_of_notMem {cs : List Char} (h : '\n' ∉ cs) : ∀ c ∈ cs, decide (c ≠ '\n') = true := by
  intro c hc
  have hne : c ≠ '\n' := fun heq => h (heq ▸ hc)
  exact decide_eq_true hne

theorem takeWhile_of_notMem {cs : List Char} (h : '\n' ∉ cs) :
    cs.takeWhile (· ≠ '\n') = cs := by
  rw [← List.append_nil cs, List.takeWhile_append_of_pos (ne_of_notMem h), List.takeWhile_nil]

theorem takeWhile_append_cons {line : List Char} (h : '\n' ∉ line) (rest : List Char) :
    (line ++ '\n' :: rest).takeWhile (· ≠ '\n') = line := by
  rw [List.takeWhile_append_of_pos (ne_of_notMem h), List.takeWhile_cons_of_neg (by simp),
    List.append_nil]

/-! ## The last line -/

/-- A text has one line only, or a last line after a line feed. -/
theorem lines_cases (cs : List Char) :
    '\n' ∉ cs ∨ ∃ upper last, cs = upper ++ '\n' :: last ∧ '\n' ∉ last := by
  by_cases h : '\n' ∈ cs
  -- The last line feed is the first one from behind.
  · obtain ⟨front, back, hcs, hfront⟩ := List.eq_append_cons_of_mem (List.mem_reverse.mpr h)
    refine .inr ⟨back.reverse, front.reverse, ?_, by rwa [List.mem_reverse]⟩
    rw [← List.reverse_reverse cs, hcs, List.reverse_append, List.reverse_cons,
      List.append_assoc, List.singleton_append]
  · exact .inl h

namespace Location

theorem lastLine_of_notMem {cs : List Char} (h : '\n' ∉ cs) : lastLine cs = cs := by
  have hreverse : '\n' ∉ cs.reverse := by rwa [List.mem_reverse]
  rw [lastLine, takeWhile_of_notMem hreverse, List.reverse_reverse]

theorem lastLine_append_cons (upper : List Char) {last : List Char} (h : '\n' ∉ last) :
    lastLine (upper ++ '\n' :: last) = last := by
  have hreverse : '\n' ∉ last.reverse := by rwa [List.mem_reverse]
  rw [lastLine, List.reverse_append, List.reverse_cons, List.append_assoc, List.singleton_append,
    takeWhile_append_cons hreverse, List.reverse_reverse]

theorem notMem_lastLine (cs : List Char) : '\n' ∉ lastLine cs := by
  rcases lines_cases cs with h | ⟨upper, last, rfl, h⟩
  · rwa [lastLine_of_notMem h]
  · rwa [lastLine_append_cons upper h]

theorem getLast?_splitOn (cs : List Char) : (cs.splitOn '\n').getLast? = some (lastLine cs) := by
  rcases lines_cases cs with h | ⟨upper, last, rfl, h⟩
  · rw [List.splitOn_eq_singleton h, lastLine_of_notMem h]
    rfl
  · rw [List.splitOn_append_cons_self, List.splitOn_eq_singleton h, lastLine_append_cons upper h,
      List.getLast?_concat]

theorem lastLine_append (before : List Char) {more : List Char} (h : '\n' ∉ more) :
    lastLine (before ++ more) = lastLine before ++ more := by
  rcases lines_cases before with hb | ⟨upper, last, rfl, hb⟩
  · rw [lastLine_of_notMem hb, lastLine_of_notMem (by simp [hb, h])]
  · rw [List.append_assoc, List.cons_append, lastLine_append_cons upper (by simp [hb, h]),
      lastLine_append_cons upper hb]

/-! ## The lines above a place -/

/-- The lines of a text, each with a line feed after it. -/
theorem flatMap_splitOn (cs : List Char) :
    (cs.splitOn '\n').flatMap (· ++ ['\n']) = cs ++ ['\n'] := by
  induction cs with
  | nil => rfl
  | cons c cs ih =>
    rw [List.splitOn_cons_eq_if_modifyHead]
    cases hlines : cs.splitOn '\n' with
    | nil => exact absurd hlines (List.splitOn_ne_nil _ _)
    | cons line lines =>
      rw [hlines] at ih
      by_cases hc : c = '\n'
      · simp only [hc, beq_self_eq_true, if_true, List.flatMap_cons, List.nil_append] at ih ⊢
        rw [ih]
        rfl
      · simpa [hc] using ih

/-- What stands before a place are the lines above, one for each line feed, and the beginning of
a line that goes on with what comes after the place. -/
theorem splitOn_before (before : List Char) :
    ∃ above : List (List Char), above.length = before.count '\n' ∧
      above.flatMap (· ++ ['\n']) ++ lastLine before = before ∧
      ∀ after, (before ++ after).splitOn '\n' =
        above ++ (lastLine before ++ after).splitOn '\n' := by
  rcases lines_cases before with h | ⟨upper, last, rfl, h⟩
  · exact ⟨[], (List.count_eq_zero.mpr h).symm, lastLine_of_notMem h,
      fun after => by rw [lastLine_of_notMem h, List.nil_append]⟩
  · refine ⟨upper.splitOn '\n', ?_, ?_, fun after => ?_⟩
    · rw [length_splitOn, List.count_append, List.count_cons_self, List.count_eq_zero.mpr h]
    · rw [flatMap_splitOn, lastLine_append_cons upper h, List.append_assoc, List.singleton_append]
    · rw [List.append_assoc, List.cons_append, List.splitOn_append_cons_self,
        lastLine_append_cons upper h]

/-- The line of a place, counted from zero by the line feeds before it, is the last line of
what stands before the place together with what follows up to a line feed. -/
theorem getElem?_splitOn (before after : List Char) :
    ((before ++ after).splitOn '\n')[before.count '\n']? =
      some (lastLine before ++ after.takeWhile (· ≠ '\n')) := by
  obtain ⟨above, hlength, -, hlines⟩ := splitOn_before before
  rw [hlines, ← hlength, List.getElem?_append_right (Nat.le_refl _), Nat.sub_self,
    ← List.head?_eq_getElem?, head?_splitOn,
    List.takeWhile_append_of_pos (ne_of_notMem (notMem_lastLine before))]

end Location
end QueryDoc
