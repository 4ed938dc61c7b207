import QueryDoc.Proofs.Lexical.Numeral
import QueryDoc.Proofs.Lexical.Digits
import QueryDoc.Proofs.Text.Location

/-! Where the caret of a snippet stands. The rows of a snippet are taken from a part of the
text and numbered by themselves, and the line and the column of a place are counted in all of
the text before it. Both agree where the line of the place has anything to show: its row has
the number of the line, and the caret below stands under the column. -/
namespace QueryDoc.Snippet

open Location

/-! ## Rows without line feeds -/

theorem notMem_dropReturn {line : List Char} (h : '\n' ∉ line) : '\n' ∉ dropReturn line := by
  rw [dropReturn]
  split
  · exact fun hmem => h (List.dropLast_subset _ hmem)
  · exact h

theorem notMem_of_mem_rowsOf {lines : List (List Char)} (h : ∀ line ∈ lines, '\n' ∉ line) :
    ∀ row ∈ rowsOf lines, '\n' ∉ row := by
  induction lines with
  | nil => exact List.forall_mem_nil _
  | cons line lines ih =>
    obtain ⟨hline, hlines⟩ := List.forall_mem_cons.mp h
    cases lines with
    | nil =>
      rw [rowsOf]
      split
      · exact List.forall_mem_nil _
      · exact List.forall_mem_singleton.mpr hline
    | cons next lines =>
      exact List.forall_mem_cons.mpr ⟨notMem_dropReturn hline, ih hlines⟩

theorem notMem_of_mem_rows {cs row : List Char} (h : row ∈ rows cs) : '\n' ∉ row := by
  rw [rows, splitLines_eq] at h
  exact notMem_of_mem_rowsOf (fun _ => notMem_of_mem_splitOn) row h

theorem notMem_numbered (width n : Nat) {row : List Char} (h : '\n' ∉ row) :
    '\n' ∉ numbered width n row := by
  have hdigits : '\n' ∉ Nat.toDigits 10 n := by
    intro hmem
    have : isDigit '\n' = true := (Numeral.digits_toDigits n).2 _ hmem
    exact absurd this (by decide)
  simp [numbered, hdigits, h]

theorem notMem_caretRow (width column length : Nat) : '\n' ∉ caretRow width column length := by
  simp [caretRow]

theorem notMem_of_mem_number {width n : Nat} {shown : List (List Char)}
    (h : ∀ row ∈ shown, '\n' ∉ row) : ∀ row ∈ number width n shown, '\n' ∉ row := by
  induction shown generalizing n with
  | nil => exact List.forall_mem_nil _
  | cons row shown ih =>
    obtain ⟨hrow, hshown⟩ := List.forall_mem_cons.mp h
    exact List.forall_mem_cons.mpr ⟨notMem_numbered width n hrow, ih hshown⟩

/-- No row of a snippet has a line feed in it. -/
theorem notMem_of_mem_layout {before marked after row : List Char}
    (h : row ∈ layout before marked after) : '\n' ∉ row := by
  have hsource : ∀ width first (shown : List (List Char)), (∀ row ∈ shown, '\n' ∉ row) →
      ∀ row ∈ (if shown.isEmpty then [[]] else number width first shown), '\n' ∉ row := by
    intro width first shown hshown
    split
    · exact List.forall_mem_singleton.mpr List.not_mem_nil
    · exact notMem_of_mem_number hshown
  simp only [layout] at h
  split at h
  · exact hsource _ _ _ (fun _ => notMem_of_mem_rows) row h
  · rcases List.mem_append.mp h with h | h
    · exact hsource _ _ _ (fun _ => notMem_of_mem_rows) row h
    · rw [List.mem_singleton.mp h]
      exact notMem_caretRow _ _ _

/-! ## The rows that are shown -/

theorem rows_of_notMem {line : List Char} (h : '\n' ∉ line) (hne : line ≠ []) :
    rows line = [line] := by
  rw [rows, splitLines_eq, List.splitOn_eq_singleton h, rowsOf,
    if_neg (by rwa [List.isEmpty_iff])]

theorem rows_append_cons {line : List Char} (h : '\n' ∉ line) (cs : List Char) :
    rows (line ++ '\n' :: cs) = dropReturn line :: rows cs := by
  rw [rows, rows, splitLines_eq, splitLines_eq, List.splitOn_append_cons_self_of_not_mem h]
  cases hlines : cs.splitOn '\n' with
  | nil => exact absurd hlines (List.splitOn_ne_nil _ _)
  | cons next lines => rfl

theorem lead_of_notMem {before : List Char} (h : '\n' ∉ before) : lead before = before := by
  rw [lead, splitLines_eq, List.splitOn_eq_singleton h]
  rfl

theorem lead_append_cons (upper : List Char) {last : List Char} (h : '\n' ∉ last) :
    lead (upper ++ '\n' :: last) = lastLine upper ++ '\n' :: last := by
  obtain ⟨lines, hlines⟩ := List.getLast?_eq_some_iff.mp (getLast?_splitOn upper)
  rw [lead, splitLines_eq, List.splitOn_append_cons_self, List.splitOn_eq_singleton h, hlines]
  simp

/-- What is shown of a text before a line comes first, numbered up to that line. -/
theorem rows_lead (before : List Char) :
    ∃ above : List (List Char), leadLine before + above.length = before.count '\n' + 1 ∧
      ∀ cs, rows (lead before ++ cs) = above ++ rows (lastLine before ++ cs) := by
  rcases lines_cases before with h | ⟨upper, last, rfl, h⟩
  · refine ⟨[], ?_, fun cs => ?_⟩
    · rw [leadLine, List.count_eq_zero.mpr h]
      rfl
    · rw [lead_of_notMem h, lastLine_of_notMem h, List.nil_append]
  · refine ⟨[dropReturn (lastLine upper)], ?_, fun cs => ?_⟩
    · have hcount : (upper ++ '\n' :: last).count '\n' ≠ 0 := by simp
      rw [leadLine, if_neg hcount]
      rfl
    · rw [lead_append_cons upper h, lastLine_append_cons upper h, List.append_assoc,
        List.cons_append, rows_append_cons (notMem_lastLine upper)]
      rfl

theorem number_append (width n : Nat) (above below : List (List Char)) :
    number width n (above ++ below) =
      number width n above ++ number width (n + above.length) below := by
  induction above generalizing n with
  | nil => rfl
  | cons row above ih =>
    rw [List.cons_append, number, ih, number, List.cons_append, List.length_cons, Nat.add_assoc,
      Nat.add_comm 1]

/-- A row with a number in a gutter that has no more room than the number needs. -/
theorem numbered_self (n : Nat) (row : List Char) :
    numbered (Nat.toDigits 10 n).length n row =
      ' ' :: (Nat.toDigits 10 n ++ (" | ".toList ++ row)) := by
  simp [numbered]

/-- A row with a number has no other number. -/
theorem eq_of_numbered {m n : Nat} {row other : List Char}
    (h : ' ' :: (Nat.toDigits 10 m ++ (" | ".toList ++ row)) =
      ' ' :: (Nat.toDigits 10 n ++ (" | ".toList ++ other))) : m = n := by
  have hdigits : ∀ k row, (Nat.toDigits 10 k ++ (" | ".toList ++ row)).takeWhile isDigit =
      Nat.toDigits 10 k := by
    intro k row
    exact Numeral.takeWhile_run (Numeral.digits_toDigits k).2 (.cons rfl _)
  have htake := congrArg (List.takeWhile isDigit) (List.cons.inj h).2
  rw [hdigits, hdigits] at htake
  rw [← digitsValue_toDigits m, htake, digitsValue_toDigits]

/-! ## The place of the caret -/

/-- The row of a line with the number of a location, and below it a row with one caret, as far
behind the gutter as the column says. -/
def rowsAt (loc : Location) (line : List Char) : List (List Char) :=
  [' ' :: (Nat.toDigits 10 loc.line ++ (" | ".toList ++ line)),
    List.replicate ((Nat.toDigits 10 loc.line).length + 1) ' ' ++ " | ".toList ++
      List.replicate loc.column ' ' ++ ['^']]

/-- The rows of the snippet at an offset of a source text. -/
def rowsShown (source : String) (offset : Nat) : List (List Char) :=
  (ofSpan source (.ofOffset source offset)).toList.splitOn '\n'

/-- The snippet at an offset ends in the line of the source text that the offset is on, with its
number, and in a caret under the column of the offset. -/
def PointsAt (source : String) (offset : Nat) : Prop :=
  ∃ above line,
    (source.toList.splitOn '\n')[(Location.ofOffset source offset).line - 1]? = some line ∧
      rowsShown source offset = above ++ rowsAt (Location.ofOffset source offset) line

section
variable {before marked after : List Char}

/-- The last rows of a snippet around a span of at most one character, where the line of the
span has something to show. -/
theorem layout_of_ne_nil (hm : '\n' ∉ marked) (hlength : marked.length ≤ 1)
    (hne : lastLine before ++ (marked ++ after.takeWhile (· ≠ '\n')) ≠ []) :
    ∃ above, layout before marked after = above ++ rowsAt (Location.after before)
      (lastLine before ++ (marked ++ after.takeWhile (· ≠ '\n'))) := by
  obtain ⟨above, hnumber, hrows⟩ := rows_lead before
  have hline : '\n' ∉ lastLine before ++ (marked ++ after.takeWhile (· ≠ '\n')) := by
    rw [List.mem_append, List.mem_append, not_or, not_or]
    exact ⟨notMem_lastLine before, hm, notMem_takeWhile after⟩
  -- The width is that of the last number shown, which is the line's own.
  have hlast : leadLine before + max (above.length + 1) 1 - 1 = before.count '\n' + 1 := by omega
  have hcarets : max marked.length 1 = 1 := by omega
  refine ⟨number (Nat.toDigits 10 (Location.after before).line).length (leadLine before) above, ?_⟩
  simp only [layout, if_neg hm, List.append_assoc (lead before), hrows,
    rows_of_notMem hline hne, List.length_append, List.length_singleton, hlast, number_append,
    hnumber, hcarets, number, numbered_self, caretRow]
  simp [rowsAt, Location.after]

/-- Where the line of an empty span at the end of a text has nothing to show, the row above the
caret is the one of the line before, or an empty one without a number. -/
theorem layout_of_eq_nil (h : lastLine before = []) :
    ∃ above row caret, layout before [] [] = above ++ [row, caret] ∧
      (row = [] ∨ ∃ line, row =
        ' ' :: (Nat.toDigits 10 (before.count '\n') ++ (" | ".toList ++ line))) := by
  obtain ⟨above, hnumber, hrows⟩ := rows_lead before
  -- An empty last line gives no row, so only what is above it is shown.
  have hshown : rows (lead before ++ [] ++ [].takeWhile (· ≠ '\n')) = above := by
    rw [List.takeWhile_nil, List.append_nil, hrows, h]
    exact List.append_nil above
  rcases List.eq_nil_or_concat above with rfl | ⟨first, line, rfl⟩
  · refine ⟨[], [], caretRow (Nat.toDigits 10 (leadLine before)).length (lastLine before).length 0,
      ?_, .inl rfl⟩
    simp only [layout, hshown]
    rfl
  · rw [List.concat_eq_append, List.length_append, List.length_singleton] at hnumber
    have hlast : leadLine before + max (first.length + 1) 1 - 1 = before.count '\n' := by omega
    have hfirst : leadLine before + first.length = before.count '\n' := by omega
    refine ⟨number (Nat.toDigits 10 (before.count '\n')).length (leadLine before) first, _,
      caretRow (Nat.toDigits 10 (before.count '\n')).length (lastLine before).length 0,
      ?_, .inr ⟨line, rfl⟩⟩
    simp only [layout, hshown, List.concat_eq_append, List.length_append, List.length_singleton,
      hlast, number_append, hfirst, number, numbered_self]
    simp

end

theorem layout_ne_nil (before marked after : List Char) : layout before marked after ≠ [] := by
  simp only [layout]
  split
  · cases rows (lead before ++ marked ++ after.takeWhile (· ≠ '\n')) with
    | nil => exact List.cons_ne_nil _ _
    | cons row shown => exact List.cons_ne_nil _ _
  · exact List.append_ne_nil_of_right_ne_nil _ (List.cons_ne_nil _ _)

/-- The rows of a snippet of a source text around a span. -/
def rowsPrinted (source : String) (span : Span) : List (List Char) :=
  (ofSpan source span).toList.splitOn '\n'

theorem rowsPrinted_append {source : String} {before marked after : List Char}
    (h : source.toList = before ++ (marked ++ after)) :
    rowsPrinted source ⟨utf8Length before, utf8Length (before ++ marked)⟩ =
      layout before marked after := by
  have hspan : ofSpan source ⟨utf8Length before, utf8Length (before ++ marked)⟩ =
      String.ofList (['\n'].intercalate (layout before marked after)) := by
    simp only [ofSpan, h, splitAtOffset_append, utf8Length_append, Nat.add_sub_cancel_left]
  rw [rowsPrinted, hspan, String.toList_ofList]
  exact List.splitOn_intercalate '\n' (fun _ => notMem_of_mem_layout) (layout_ne_nil _ _ _)

theorem span_append {source : String} {before after : List Char}
    (h : source.toList = before ++ after) :
    Span.ofOffset source (utf8Length before) =
      ⟨utf8Length before, utf8Length (before ++ after.take 1)⟩ := by
  simp only [Span.ofOffset, h, splitAtOffset_append]
  cases after with
  | nil => rw [List.take_nil, List.append_nil]
  | cons c after =>
    rw [List.take_succ_cons, List.take_zero, utf8Length_append]
    rfl

/-- The snippet at an offset is laid out around the character there, if there is one. -/
theorem rowsShown_append (before after : String) :
    rowsShown (before ++ after) (utf8Length before.toList) =
      layout before.toList (after.toList.take 1) (after.toList.drop 1) := by
  have hsource : (before ++ after).toList =
      before.toList ++ (after.toList.take 1 ++ after.toList.drop 1) := by
    rw [String.toList_append, List.take_append_drop]
  rw [rowsShown, span_append String.toList_append]
  exact rowsPrinted_append hsource

theorem location_append (before after : String) :
    Location.ofOffset (before ++ after) (utf8Length before.toList) =
      Location.after before.toList :=
  ofOffset_append String.toList_append

/-- The caret of the snippet at a place of a source text, where no line feed comes next, stands
under that place in the row of its line, except at the end of a text whose last line is empty. -/
theorem pointsAt_iff (before after : String) (h : after.toList.head? ≠ some '\n') :
    PointsAt (before ++ after) (utf8Length before.toList) ↔
      ¬ (after = "" ∧ lastLine before.toList = []) := by
  rw [PointsAt, rowsShown_append, location_append]
  constructor
  · rintro ⟨above, line, -, hshown⟩ ⟨rfl, hlast⟩
    obtain ⟨above', row, caret, hlayout, hrow⟩ := layout_of_eq_nil hlast
    -- Both end in two rows, and the upper ones have different numbers.
    have heq := (List.append_inj' (hlayout.symm.trans hshown) rfl).2
    have hsame : row = _ := (List.cons.inj heq).1
    rcases hrow with rfl | ⟨prev, rfl⟩
    · cases hsame
    · have hcount : before.toList.count '\n' = before.toList.count '\n' + 1 :=
        eq_of_numbered hsame
      omega
  · intro hempty
    have hmarked : '\n' ∉ after.toList.take 1 := by
      cases hafter : after.toList with
      | nil => exact List.not_mem_nil
      | cons c cs =>
        rw [hafter] at h
        simpa using Ne.symm (by simpa using h)
    have hline : after.toList.take 1 ++ (after.toList.drop 1).takeWhile (· ≠ '\n') =
        after.toList.takeWhile (· ≠ '\n') := by
      rw [← List.takeWhile_append_of_pos (ne_of_notMem hmarked), List.take_append_drop]
    have hne : lastLine before.toList ++
        (after.toList.take 1 ++ (after.toList.drop 1).takeWhile (· ≠ '\n')) ≠ [] := by
      intro heq
      obtain ⟨hlast, hrest⟩ := List.append_eq_nil_iff.mp heq
      obtain ⟨htake, -⟩ := List.append_eq_nil_iff.mp hrest
      exact hempty ⟨by simpa using htake, hlast⟩
    obtain ⟨above, habove⟩ := layout_of_ne_nil hmarked (List.length_take_le 1 _) hne
    refine ⟨above, _, ?_, habove⟩
    rw [hline, String.toList_append]
    exact getElem?_splitOn before.toList after.toList

/-- A place on the second line of a text with a carriage return and letters of two bytes. -/
theorem pointsAt_second :
    "ü b".toList.head? ≠ some '\n' ∧ PointsAt "a\r\né ü b" 6 :=
  ⟨by decide, (pointsAt_iff "a\r\né " "ü b" (by decide)).mpr (by decide)⟩

example : rowsShown "a\r\né ü b" 6 =
    [" 1 | a".toList, " 2 | é ü b".toList, "   |   ^".toList] := by decide

/-- At the end of a text that ends in a line feed the caret stands under the line before. -/
theorem not_pointsAt_end : ¬ PointsAt "a\n" 2 := by
  have hshown : rowsShown "a\n" 2 = [] ++ [" 1 | a".toList, "   | ^".toList] := by decide
  rintro ⟨above, line, -, hrows⟩
  have hsame : ' ' :: (Nat.toDigits 10 1 ++ (" | ".toList ++ ['a'])) =
      ' ' :: (Nat.toDigits 10 2 ++ (" | ".toList ++ line)) :=
    (List.cons.inj (List.append_inj' (hshown.symm.trans hrows) rfl).2).1
  exact absurd (eq_of_numbered hsame) (by decide)

end QueryDoc.Snippet
