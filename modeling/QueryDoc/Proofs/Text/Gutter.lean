import Mathlib.Data.Nat.PSub
import QueryDoc.Proofs.Text.Snippet

/-! The gutter of a snippet. The rows are numbered from the first line shown on, and the gutter
has room for the last number; so it has room for each of them, and nothing that is subtracted in
setting the rows is too large. Each row shows the line of the source text with its number. Only
where there is no line to show, around an empty span before an empty first line, a row without
a gutter stands above the caret. -/
namespace QueryDoc

/-! ## Spans of a text -/

/-- A span of a text lies between two of its places. -/
structure Span.Within (span : Span) (source : String) : Prop where
  start : IsPlace source span.start
  stop : IsPlace source span.stop
  start_le_stop : span.start ≤ span.stop

theorem Span.Within.exists_append {span : Span} {source : String} (h : span.Within source) :
    ∃ before marked after : List Char, source.toList = before ++ (marked ++ after) ∧
      span = ⟨utf8Length before, utf8Length (before ++ marked)⟩ := by
  obtain ⟨start, stop⟩ := span
  obtain ⟨before, marked, after, hsource, rfl, rfl⟩ := h.start.exists_between h.stop h.start_le_stop
  exact ⟨before, marked, after, hsource, rfl⟩

namespace Snippet

open Location

/-! ## Setting rows with subtractions that may fail -/

/-- A row with its line number, as `numbered` sets it; there is none where the number is wider
than the gutter. -/
def numbered? (width number : Nat) (row : List Char) : Option (List Char) :=
  let digits := Nat.toDigits 10 number
  (Nat.psub width digits.length).map fun room =>
    List.replicate (room + 1) ' ' ++ digits ++ " | ".toList ++ row

def number? (width : Nat) : Nat → List (List Char) → Option (List (List Char))
  | _, [] => some []
  | n, row :: rows => do
    let first ← numbered? width n row
    let others ← number? width (n + 1) rows
    return first :: others

def sourceRows? (width first : Nat) (shown : List (List Char)) : Option (List (List Char)) :=
  if shown.isEmpty then some [[]] else number? width first shown

/-- The number of the first row is one less than that of the line of the span, where there is a
line above. -/
def leadLine? (before : List Char) : Option Nat :=
  let line := before.count '\n' + 1
  if '\n' ∈ before then Nat.psub line 1 else some line

/-- The rows of a snippet, as `layout` gives them; there are none where one of the numbers that
are subtracted on the way is larger than the number that it is subtracted from. -/
def layout? (before marked after : List Char) : Option (List (List Char)) := do
  let first ← leadLine? before
  let shown := rows (lead before ++ marked ++ after.takeWhile (· ≠ '\n'))
  let last ← Nat.psub (first + max shown.length 1) 1
  let width := (Nat.toDigits 10 last).length
  let sourceRows ← sourceRows? width first shown
  return if '\n' ∈ marked then sourceRows
    else sourceRows ++ [caretRow width (lastLine before).length marked.length]

def ofSpan? (source : String) (span : Span) : Option String :=
  let (before, rest) := splitAtOffset source.toList span.start
  let (marked, after) := splitAtOffset rest (span.stop - span.start)
  (layout? before marked after).map fun rows => String.ofList (['\n'].intercalate rows)

theorem numbered?_eq {width n : Nat} (h : (Nat.toDigits 10 n).length ≤ width) (row : List Char) :
    numbered? width n row = some (numbered width n row) := by
  rw [numbered?, Nat.psub_eq_sub h]
  rfl

/-- The gutter has room for all numbers up to the last one. -/
theorem number?_eq {last n : Nat} {shown : List (List Char)} (h : n + shown.length ≤ last + 1) :
    number? (Nat.toDigits 10 last).length n shown =
      some (number (Nat.toDigits 10 last).length n shown) := by
  induction shown generalizing n with
  | nil => rfl
  | cons row shown ih =>
    rw [List.length_cons] at h
    have hroom : (Nat.toDigits 10 n).length ≤ (Nat.toDigits 10 last).length :=
      length_toDigits_le (by omega)
    rw [number?, numbered?_eq hroom, ih (by omega)]
    rfl

theorem leadLine?_eq (before : List Char) : leadLine? before = some (leadLine before) := by
  by_cases h : '\n' ∈ before
  · have hpos : 0 < before.count '\n' := List.count_pos_iff.mpr h
    rw [leadLine?, if_pos h, Nat.psub_eq_sub (Nat.le_add_left _ _), leadLine,
      if_neg (Nat.ne_of_gt hpos)]
    rfl
  · rw [leadLine?, if_neg h, leadLine, List.count_eq_zero.mpr h]
    rfl

theorem sourceRows?_eq (first : Nat) (shown : List (List Char)) :
    sourceRows? (Nat.toDigits 10 (first + max shown.length 1 - 1)).length first shown =
      some (if shown.isEmpty then [[]] else
        number (Nat.toDigits 10 (first + max shown.length 1 - 1)).length first shown) := by
  rw [sourceRows?]
  split
  · rfl
  · exact number?_eq (by omega)

/-- No subtraction on the way to the rows of a snippet goes below zero. -/
theorem layout?_eq (before marked after : List Char) :
    layout? before marked after = some (layout before marked after) := by
  have hlast : ∀ first count : Nat, 1 ≤ first + max count 1 := by
    intro first count
    omega
  simp only [layout?, leadLine?_eq, Option.bind_eq_bind, Option.bind_some,
    Nat.psub_eq_sub (hlast _ _), sourceRows?_eq]
  rfl

theorem ofSpan?_eq (source : String) (span : Span) :
    ofSpan? source span = some (ofSpan source span) := by
  simp only [ofSpan?, layout?_eq]
  rfl

/-! ## Rows with a gutter -/

/-- A row of a snippet: a label set right in a gutter of some width, a bar, and a text. -/
def InGutter (width : Nat) (label text row : List Char) : Prop :=
  ∃ blanks, blanks + label.length = width ∧
    row = List.replicate blanks ' ' ++ label ++ " | ".toList ++ text

section
variable {width n : Nat}

theorem inGutter_numbered (h : (Nat.toDigits 10 n).length ≤ width) (row : List Char) :
    InGutter (width + 1) (Nat.toDigits 10 n) row (numbered width n row) :=
  ⟨width - (Nat.toDigits 10 n).length + 1, by omega, rfl⟩

theorem inGutter_caretRow (column length : Nat) :
    InGutter (width + 1) [] (List.replicate column ' ' ++ List.replicate (max length 1) '^')
      (caretRow width column length) :=
  ⟨width + 1, rfl, by simp [caretRow]⟩

theorem not_inGutter_nil {label text : List Char} : ¬ InGutter width label text [] := by
  rintro ⟨blanks, -, h⟩
  simp at h

theorem getElem?_number (shown : List (List Char)) (i : Nat) :
    (number width n shown)[i]? = shown[i]?.map (numbered width (n + i)) := by
  induction shown generalizing n i with
  | nil => rfl
  | cons row shown ih =>
    cases i with
    | zero => rfl
    | succ i =>
      rw [number, List.getElem?_cons_succ, List.getElem?_cons_succ, ih, Nat.add_right_comm,
        Nat.add_assoc]

end

/-! ## Rows and the lines they show -/

/-- A text shows a line if it is that line, or that line without a carriage return at its end. -/
def Shows (text line : List Char) : Prop := text = line ∨ text ++ ['\r'] = line

theorem shows_dropReturn (line : List Char) : Shows (dropReturn line) line := by
  rw [dropReturn]
  split
  · next h =>
    obtain ⟨text, rfl⟩ := List.getLast?_eq_some_iff.mp h
    exact .inr (by rw [List.dropLast_concat])
  · exact .inl rfl

theorem line_of_rowsOf {lines : List (List Char)} {i : Nat} {row : List Char}
    (h : (rowsOf lines)[i]? = some row) : ∃ line, lines[i]? = some line ∧ Shows row line := by
  induction lines generalizing i with
  | nil => cases h
  | cons line lines ih =>
    cases lines with
    | nil =>
      rw [rowsOf] at h
      split at h
      · cases h
      · exact ⟨row, h, .inl rfl⟩
    | cons next lines =>
      cases i with
      | zero =>
        obtain rfl : dropReturn line = row := Option.some.inj h
        exact ⟨line, rfl, shows_dropReturn line⟩
      | succ i => exact ih h

/-- The rows shown of a text before a line feed or its end are its lines, whatever follows. -/
theorem splitOn_upToLine (cs after : List Char) :
    ∃ below, (cs ++ after).splitOn '\n' =
      (cs ++ after.takeWhile (· ≠ '\n')).splitOn '\n' ++ below := by
  by_cases h : '\n' ∈ after
  · obtain ⟨line, below, rfl, hline⟩ := List.eq_append_cons_of_mem h
    refine ⟨below.splitOn '\n', ?_⟩
    rw [takeWhile_append_cons hline, ← List.append_assoc, List.splitOn_append_cons_self]
  · exact ⟨[], by rw [takeWhile_of_notMem h, List.append_nil]⟩

/-- The lines above the first line shown. -/
theorem splitOn_lead (before : List Char) :
    ∃ above : List (List Char), above.length + 1 = leadLine before ∧
      ∀ after, (before ++ after).splitOn '\n' = above ++ (lead before ++ after).splitOn '\n' := by
  rcases lines_cases before with h | ⟨upper, last, rfl, h⟩
  · refine ⟨[], ?_, fun after => ?_⟩
    · rw [leadLine, List.count_eq_zero.mpr h]
      rfl
    · rw [lead_of_notMem h, List.nil_append]
  · obtain ⟨above, hlength, -, hlines⟩ := splitOn_before upper
    refine ⟨above, ?_, fun after => ?_⟩
    · have hcount : (upper ++ '\n' :: last).count '\n' = upper.count '\n' + 1 := by
        rw [List.count_append, List.count_cons_self, List.count_eq_zero.mpr h]
      rw [leadLine, hcount, if_neg (Nat.succ_ne_zero _), hlength]
    · rw [lead_append_cons upper h, List.append_assoc, hlines, List.append_assoc]

/-- The rows of source lines that a snippet shows. -/
def shown (before marked after : List Char) : List (List Char) :=
  rows (lead before ++ marked ++ after.takeWhile (· ≠ '\n'))

/-- The rows that are shown are lines of the source text that follow each other. -/
theorem line_of_shown (before marked after : List Char) :
    ∃ first, first + 1 = leadLine before ∧
      ∀ i row, (shown before marked after)[i]? = some row →
        ∃ line, ((before ++ (marked ++ after)).splitOn '\n')[first + i]? = some line ∧
          Shows row line := by
  obtain ⟨above, hlength, hlead⟩ := splitOn_lead before
  obtain ⟨below, hbelow⟩ := splitOn_upToLine (lead before ++ marked) after
  refine ⟨above.length, hlength, fun i row h => ?_⟩
  rw [shown, rows, splitLines_eq] at h
  obtain ⟨line, hline, hshows⟩ := line_of_rowsOf h
  refine ⟨line, ?_, hshows⟩
  rw [hlead, ← List.append_assoc, hbelow, List.getElem?_append_right (Nat.le_add_right _ _),
    Nat.add_sub_cancel_left, List.getElem?_append_left (List.getElem?_eq_some_iff.mp hline).1]
  exact hline

theorem rows_eq_nil_iff {cs : List Char} : rows cs = [] ↔ cs = [] := by
  constructor
  · intro h
    by_cases hmem : '\n' ∈ cs
    · obtain ⟨line, rest, rfl, hline⟩ := List.eq_append_cons_of_mem hmem
      rw [rows_append_cons hline] at h
      cases h
    · by_cases hne : cs = []
      · exact hne
      · rw [rows_of_notMem hmem hne] at h
        cases h
  · rintro rfl
    rfl

theorem lead_eq_nil_iff {before : List Char} : lead before = [] ↔ before = [] := by
  rcases lines_cases before with h | ⟨upper, last, rfl, h⟩
  · rw [lead_of_notMem h]
  · simp [lead_append_cons upper h]

theorem shown_eq_nil_iff {before marked after : List Char} :
    shown before marked after = [] ↔
      before ++ marked = [] ∧ after.takeWhile (· ≠ '\n') = [] := by
  rw [shown, rows_eq_nil_iff, List.append_eq_nil_iff, List.append_eq_nil_iff,
    List.append_eq_nil_iff, lead_eq_nil_iff]

/-! ## Snippets that are laid out -/

/-- A row with the number of a line of the source text, and with that line behind the gutter. The
index of the line counts from zero. -/
def ShowsLine (source : String) (width index : Nat) (row : List Char) : Prop :=
  ∃ line text, (source.toList.splitOn '\n')[index]? = some line ∧ Shows text line ∧
    InGutter width (Nat.toDigits 10 (index + 1)) text row

/-- The carets of a snippet: a row without a number where the span lies on one line, with a caret
for each character of the span and at least one, and no row otherwise. -/
def CaretsUnder (source : String) (span : Span) (width : Nat) (carets : List (List Char)) : Prop :=
  let start := ofOffset source span.start
  let stop := ofOffset source span.stop
  if start.line = stop.line then
    ∃ row, carets = [row] ∧ InGutter width [] (List.replicate start.column ' ' ++
      List.replicate (max (stop.column - start.column) 1) '^') row
  else carets = []

/-- A snippet that is laid out under one gutter: its rows have the numbers of lines that follow
each other, show these lines, and the row of carets goes with them. -/
def LaidOut (source : String) (span : Span) : Prop :=
  ∃ width first lines carets,
    rowsPrinted source span = lines ++ carets ∧
    (∀ i row, lines[i]? = some row → ShowsLine source width (first + i) row) ∧
    CaretsUnder source span width carets

/-- The number of digits of the last number that a snippet shows. -/
def digitsShown (before marked after : List Char) : Nat :=
  (Nat.toDigits 10 (leadLine before + max (shown before marked after).length 1 - 1)).length

def caretRows (before marked after : List Char) : List (List Char) :=
  if '\n' ∈ marked then []
  else [caretRow (digitsShown before marked after) (lastLine before).length marked.length]

section
variable {source : String} {before marked after : List Char}

theorem layout_of_shown (h : shown before marked after ≠ []) :
    layout before marked after =
      number (digitsShown before marked after) (leadLine before) (shown before marked after) ++
        caretRows before marked after := by
  have hempty : (rows (lead before ++ marked ++ after.takeWhile (· ≠ '\n'))).isEmpty = false :=
    List.isEmpty_eq_false_iff.mpr h
  simp only [layout, hempty, caretRows]
  split
  · exact (List.append_nil _).symm
  · rfl

theorem layout_of_emptyLine (h : after.takeWhile (· ≠ '\n') = []) :
    layout [] [] after = [[], caretRow 1 0 0] := by
  simp only [layout, h]
  rfl

theorem caretsUnder_caretRows (h : source.toList = before ++ (marked ++ after)) :
    CaretsUnder source ⟨utf8Length before, utf8Length (before ++ marked)⟩
      (digitsShown before marked after + 1) (caretRows before marked after) := by
  simp only [CaretsUnder, ofOffset_append h, ofOffset_between h]
  by_cases hmem : '\n' ∈ marked
  · have hpos : 0 < marked.count '\n' := List.count_pos_iff.mpr hmem
    have hline : (Location.after before).line ≠ (Location.after (before ++ marked)).line := by
      show before.count '\n' + 1 ≠ (before ++ marked).count '\n' + 1
      rw [List.count_append]
      omega
    rw [if_neg hline, caretRows, if_pos hmem]
  · rw [after_append before hmem, if_pos rfl, caretRows, if_neg hmem, Nat.add_sub_cancel_left]
    exact ⟨_, rfl, inGutter_caretRow _ _⟩

theorem laidOut_of_shown (h : source.toList = before ++ (marked ++ after))
    (hne : shown before marked after ≠ []) :
    LaidOut source ⟨utf8Length before, utf8Length (before ++ marked)⟩ := by
  obtain ⟨first, hfirst, hlines⟩ := line_of_shown before marked after
  refine ⟨_, first, _, _, (rowsPrinted_append h).trans (layout_of_shown hne), ?_,
    caretsUnder_caretRows h⟩
  intro i row hrow
  obtain ⟨text, htext, rfl⟩ := Option.map_eq_some_iff.mp ((getElem?_number _ i).symm.trans hrow)
  obtain ⟨line, hline, hshows⟩ := hlines i text htext
  have hi : i < (shown before marked after).length := (List.getElem?_eq_some_iff.mp htext).1
  have hroom : (Nat.toDigits 10 (leadLine before + i)).length ≤ digitsShown before marked after :=
    length_toDigits_le (by omega)
  have hnumber : leadLine before + i = first + i + 1 := by omega
  refine ⟨line, text, h ▸ hline, hshows, ?_⟩
  rw [← hnumber]
  exact inGutter_numbered hroom text

/-- Nothing is shown around an empty span at the start of a text whose first line is empty. -/
theorem nothing_shown_iff (h : source.toList = before ++ (marked ++ after)) :
    shown before marked after = [] ↔
      utf8Length (before ++ marked) = 0 ∧ (source.toList.splitOn '\n')[0]? = some [] := by
  rw [shown_eq_nil_iff, utf8Length_eq_zero_iff, ← List.head?_eq_getElem?, head?_splitOn,
    Option.some_inj]
  refine and_congr_right fun hempty => ?_
  rw [h, ← List.append_assoc, hempty, List.nil_append]

/-- A row with nothing in it has no gutter. -/
theorem not_laidOut_of_blank {span : Span} {row : List Char}
    (h : rowsPrinted source span = [[], row]) : ¬ LaidOut source span := by
  rintro ⟨width, first, lines, carets, hrows, hlines, hcarets⟩
  have hcount : carets.length ≤ 1 := by
    simp only [CaretsUnder] at hcarets
    split at hcarets
    · obtain ⟨row, rfl, -⟩ := hcarets
      exact Nat.le_refl _
    · rw [hcarets]
      exact Nat.zero_le _
  cases lines with
  | nil =>
    rw [h, List.nil_append] at hrows
    rw [← hrows] at hcount
    exact absurd hcount (Nat.not_succ_le_self 1)
  | cons line lines =>
    rw [h, List.cons_append] at hrows
    obtain rfl : [] = line := (List.cons.inj hrows).1
    obtain ⟨_, _, -, -, hgutter⟩ := hlines 0 [] rfl
    exact not_inGutter_nil hgutter

end

/-- The rows of a snippet around a span of a source text have numbers that follow each other, set
right in one gutter that the row of carets has too, and no subtraction in setting them goes below
zero; but around an empty span at the start of a text whose first line is empty, a blank row
without a number stands above the caret. -/
theorem laidOut_iff (source : String) (span : Span) (h : span.Within source) :
    ofSpan? source span = some (ofSpan source span) ∧
      (LaidOut source span ↔
        ¬ (span.stop = 0 ∧ (source.toList.splitOn '\n')[0]? = some [])) := by
  refine ⟨ofSpan?_eq source span, ?_⟩
  obtain ⟨before, marked, after, hsource, rfl⟩ := h.exists_append
  show _ ↔ ¬ (utf8Length (before ++ marked) = 0 ∧ (source.toList.splitOn '\n')[0]? = some [])
  rw [← nothing_shown_iff hsource]
  constructor
  · intro hlaid hnone
    obtain ⟨hempty, hline⟩ := shown_eq_nil_iff.mp hnone
    obtain ⟨rfl, rfl⟩ := List.append_eq_nil_iff.mp hempty
    have hblank : rowsPrinted source ⟨utf8Length [], utf8Length ([] ++ [])⟩ =
        [[], caretRow 1 0 0] :=
      (rowsPrinted_append hsource).trans (layout_of_emptyLine hline)
    exact not_laidOut_of_blank hblank hlaid
  · exact laidOut_of_shown hsource

/-- A span on the tenth line, below a number with one digit less. -/
theorem laidOut_iff_tenLines :
    (⟨11, 13⟩ : Span).Within "\n\n\n\n\n\n\n\né\nü" ∧
      ofSpan? "\n\n\n\n\n\n\n\né\nü" ⟨11, 13⟩ = some (ofSpan "\n\n\n\n\n\n\n\né\nü" ⟨11, 13⟩) ∧
      LaidOut "\n\n\n\n\n\n\n\né\nü" ⟨11, 13⟩ := by
  have hwithin : (⟨11, 13⟩ : Span).Within "\n\n\n\n\n\n\n\né\nü" :=
    ⟨by decide, by decide, by decide⟩
  obtain ⟨hspan, hlaid⟩ := laidOut_iff _ _ hwithin
  exact ⟨hwithin, hspan, hlaid.mpr (by decide)⟩

example : rowsPrinted "\n\n\n\n\n\n\n\né\nü" ⟨11, 13⟩ =
    ["  9 | é".toList, " 10 | ü".toList, "    | ^".toList] := by decide

/-- The snippet of the empty text has a blank row above the caret. -/
theorem not_laidOut_empty : (⟨0, 0⟩ : Span).Within "" ∧ ¬ LaidOut "" ⟨0, 0⟩ := by
  have hblank : rowsPrinted "" ⟨0, 0⟩ = [[], "   | ^".toList] := by decide
  exact ⟨⟨by decide, by decide, by decide⟩, not_laidOut_of_blank hblank⟩

end Snippet
end QueryDoc
