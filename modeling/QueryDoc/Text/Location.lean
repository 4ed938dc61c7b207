/-! Places in a source text. A place is given as a UTF-8 offset, which must
fall between two characters, and is shown to people as a line and a column. -/
namespace QueryDoc

/-- The number of bytes that characters take up in UTF-8. -/
def utf8Length : List Char → Nat
  | [] => 0
  | c :: cs => c.utf8Size + utf8Length cs

/-- Splits a text at a UTF-8 offset. All of it comes before an offset past its
end. -/
def splitAtOffset : List Char → Nat → List Char × List Char
  | [], _ => ([], [])
  | c :: cs, 0 => ([], c :: cs)
  | c :: cs, n + 1 =>
    let (before, after) := splitAtOffset cs (n + 1 - c.utf8Size)
    (c :: before, after)

/-- A line, counted from one, and a column, counted in characters from zero. -/
structure Location where
  line : Nat
  column : Nat
deriving DecidableEq, Repr

namespace Location

/-- What stands after the last line feed. -/
def lastLine (cs : List Char) : List Char := (cs.reverse.takeWhile (· ≠ '\n')).reverse

/-- The location of the place after a text. -/
def after (before : List Char) : Location where
  line := before.count '\n' + 1
  column := (lastLine before).length

/-- The location of an offset in a source text; an offset past the end has the
location of the end. -/
def ofOffset (source : String) (offset : Nat) : Location :=
  after (splitAtOffset source.toList offset).1

end Location
end QueryDoc
