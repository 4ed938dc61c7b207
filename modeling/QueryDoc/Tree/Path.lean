import QueryDoc.Error
import QueryDoc.Lexical.Numeral

/-! Paths from a node to one of its descendants, written as segments joined by
dots; the path to the node itself is empty. -/
namespace QueryDoc

namespace Segment

/-- The largest position in a list that can be written. -/
def maxIndex : Nat := Nat.pow 2 64 - 1

/-- A position in decimal, with or without a plus sign. -/
def index? (cs : List Char) : Option Nat :=
  let digits := match cs with
    | '+' :: rest => rest
    | cs => cs
  (natural? digits).filter (· ≤ maxIndex)

/-- Reads one segment; a position goes before the names of slots. -/
def parse (cs : List Char) : Except Error Segment :=
  match index? cs with
  | some n => .ok (.index n)
  | none =>
    match slots.find? (·.toText.toList == cs) with
    | some slot => .ok slot
    | none => .error (.unknownSegment (String.ofList cs))

end Segment

/-- The way from a node to one of its descendants. -/
structure Path where
  segments : List Segment
deriving DecidableEq, Repr

namespace Path

/-- The path from a node to itself. -/
def empty : Path := ⟨[]⟩

def push (p : Path) (s : Segment) : Path := ⟨p.segments ++ [s]⟩

/-- Goes on along the key of a child. -/
def extend (p : Path) (key : List Segment) : Path := ⟨p.segments ++ key⟩

def last? (p : Path) : Option Segment := p.segments.getLast?

/-- Removes the last segment. -/
def pop (p : Path) : Option Segment × Path := (p.last?, ⟨p.segments.dropLast⟩)

/-- Removes as many segments from the end as a key has. -/
def drop (p : Path) (count : Nat) : Path := ⟨p.segments.take (p.segments.length - count)⟩

def length (p : Path) : Nat := p.segments.length

/-- The segments with dots between them. -/
def chars (p : Path) : List Char := ['.'].intercalate (p.segments.map (·.toText.toList))

def toText (p : Path) : String := String.ofList p.chars

/-- Cuts a text at its dots; there is always at least one part. -/
def splitDots : List Char → List (List Char)
  | [] => [[]]
  | c :: cs =>
    match splitDots cs with
    | [] => [[c]]
    | part :: parts => if c = '.' then [] :: part :: parts else (c :: part) :: parts

/-- Reads a path; the first segment that cannot be read is reported. -/
def parse (source : String) : Except Error Path :=
  match source.toList with
  | [] => .ok empty
  | cs => do return ⟨← (splitDots cs).mapM Segment.parse⟩

end Path
end QueryDoc
