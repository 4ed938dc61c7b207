import QueryDoc.Text.Location

/-! Snippets: a few numbered lines of a source text around a span of it, with
carets under the span where it lies on one line. -/
namespace QueryDoc

/-- A range of UTF-8 offsets into a source text. -/
structure Span where
  start : Nat
  stop : Nat
deriving DecidableEq, Repr

namespace Span

/-- The span of the character at an offset, empty at the end of the text and
past it. -/
def ofOffset (source : String) (offset : Nat) : Span :=
  let (before, after) := splitAtOffset source.toList offset
  let start := utf8Length before
  match after with
  | [] => ⟨start, start⟩
  | c :: _ => ⟨start, start + c.utf8Size⟩

end Span

namespace Snippet

/-- Cuts a text at its line feeds; there is always at least one part. -/
def splitLines : List Char → List (List Char)
  | [] => [[]]
  | c :: cs =>
    match splitLines cs with
    | [] => [[c]]
    | line :: lines => if c = '\n' then [] :: line :: lines else (c :: line) :: lines

/-- A line that a line feed ended loses the carriage return before it. -/
def dropReturn (line : List Char) : List Char :=
  if line.getLast? = some '\r' then line.dropLast else line

/-- The rows to show for the parts of a text between line feeds: what follows
the last line feed is a row of its own only when something is there. -/
def rowsOf : List (List Char) → List (List Char)
  | [] => []
  | [last] => if last.isEmpty then [] else [last]
  | line :: lines => dropReturn line :: rowsOf lines

/-- The lines of a text, each without the line feed that ends it. -/
def rows (cs : List Char) : List (List Char) := rowsOf (splitLines cs)

/-- The last two lines of what stands before a span, or its only line. -/
def lead (before : List Char) : List Char :=
  match (splitLines before).reverse with
  | last :: line :: _ => line ++ '\n' :: last
  | _ => before

/-- The number of the first line that `lead` keeps. -/
def leadLine (before : List Char) : Nat :=
  let lines := before.count '\n'
  if lines = 0 then 1 else lines

/-- A row with its line number set right in a gutter. -/
def numbered (width number : Nat) (row : List Char) : List Char :=
  let digits := Nat.toDigits 10 number
  List.replicate (width - digits.length + 1) ' ' ++ digits ++ " | ".toList ++ row

/-- The row of carets under a span that starts at a column. -/
def caretRow (width column length : Nat) : List Char :=
  List.replicate (width + 1) ' ' ++ " | ".toList ++ List.replicate column ' '
    ++ List.replicate (max length 1) '^'

/-- The numbered rows, counted on from a first line number. -/
def number (width : Nat) : Nat → List (List Char) → List (List Char)
  | _, [] => []
  | n, row :: rows => numbered width n row :: number width (n + 1) rows

/-- The rows of a snippet: the line before the span, the lines of the span and,
when the span does not cross a line feed, a row of carets. A text without any
row to show still has the row of carets, after an empty one. -/
def layout (before marked after : List Char) : List (List Char) :=
  let first := leadLine before
  let shown := rows (lead before ++ marked ++ after.takeWhile (· ≠ '\n'))
  let last := first + max shown.length 1 - 1
  let width := (Nat.toDigits 10 last).length
  let sourceRows := if shown.isEmpty then [[]] else number width first shown
  if '\n' ∈ marked then sourceRows
  else sourceRows ++ [caretRow width (Location.lastLine before).length marked.length]

/-- A snippet of a source text around a span. -/
def ofSpan (source : String) (span : Span) : String :=
  let (before, rest) := splitAtOffset source.toList span.start
  let (marked, after) := splitAtOffset rest (span.stop - span.start)
  String.ofList (['\n'].intercalate (layout before marked after))

end Snippet
end QueryDoc
