import QueryDoc.Error
import QueryDoc.Grammar.Rule
import QueryDoc.Lexical.Lexer
import QueryDoc.Text.Snippet

/-! Reports of failed readings. A failure is reported at the furthest place
where a terminal was missed. What was expected there is the kind of the outermost
rule that was given up and starts at that place, or else of the innermost one
that contains it. -/
namespace QueryDoc

/-- The furthest place so far, as a UTF-8 offset, and what was expected there. -/
structure Furthest where
  offset : Nat
  expected : Option Kind
deriving DecidableEq, Repr

namespace Furthest

/-- The state before anything was missed. -/
def start : Furthest := ⟨0, none⟩

/-- Takes one more setback into account. -/
def step (offsetOf : List Token → Nat) (f : Furthest) : Setback → Furthest
  | .miss rest => if offsetOf rest > f.offset then ⟨offsetOf rest, none⟩ else f
  | .gaveUp rest kind =>
    if f.expected.isNone || offsetOf rest == f.offset then ⟨f.offset, some kind⟩ else f

/-- The state after all setbacks. -/
def ofTrail (offsetOf : List Token → Nat) (trail : List Setback) : Furthest :=
  trail.foldl (step offsetOf) start

end Furthest

/-- Why a source text could not be read. -/
structure Failure where
  /-- What was to be read. -/
  entry : Kind
  /-- What was expected where reading failed. -/
  expected : Kind
  /-- Where reading failed, as a UTF-8 offset. -/
  offset : Nat
  location : Location
  snippet : String
deriving DecidableEq, Repr

namespace Failure

/-- The offsets of all terminals of a source text and of its end. -/
def offsets (source : List Char) (lexemes : List Lexer.Lexeme) : Array Nat :=
  let size := utf8Length source
  (lexemes.map fun l => size - utf8Length l.place).toArray.push size

/-- The offset of the place before the last few terminals. -/
def offsetBefore (offsets : Array Nat) (rest : List Token) : Nat :=
  offsets.getD (offsets.size - 1 - rest.length) 0

/-- The report that a trail of setbacks leads to. -/
def ofTrail (entry : Kind) (source : String) (lexemes : List Lexer.Lexeme)
    (trail : List Setback) : Failure :=
  let furthest := Furthest.ofTrail (offsetBefore (offsets source.toList lexemes)) trail
  { entry
    expected := furthest.expected.getD entry
    offset := furthest.offset
    location := .ofOffset source furthest.offset
    snippet := Snippet.ofSpan source (.ofOffset source furthest.offset) }

def error (f : Failure) : Error := .unreadable f.expected f.location f.snippet

/-- What is noted for the developers of a program about a failed reading. -/
def note (f : Failure) : String :=
  "failed to parse " ++ f.entry.label ++ " at " ++ toString f.location.line ++ ":"
    ++ toString f.location.column ++ ", expected " ++ f.expected.label

end Failure
end QueryDoc
