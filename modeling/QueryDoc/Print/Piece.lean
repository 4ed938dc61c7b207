import QueryDoc.Lexical.Token
import QueryDoc.Text.Location

/-! The output of the printer before it becomes text: terminals and the blanks
between them. The blanks carry the layout and nothing else. -/
namespace QueryDoc

/-- A terminal or a blank. -/
inductive Piece where
  | token (t : Token)
  /-- A single space. -/
  | space
  /-- A comma and a space. -/
  | comma
  /-- A new line, indented by some steps of two spaces. -/
  | line (indent : Nat)
deriving DecidableEq, Repr

namespace Piece

def name (text : String) : Piece := .token (.name text)

def chars : Piece → List Char
  | .token t => t.chars
  | .space => [' ']
  | .comma => [',', ' ']
  | .line indent => '\n' :: List.replicate (2 * indent) ' '

def token? : Piece → Option Token
  | .token t => some t
  | _ => none

end Piece

/-- The text of printed pieces. -/
def render (pieces : List Piece) : List Char := pieces.flatMap Piece.chars

/-- The terminals among printed pieces. -/
def tokensOf (pieces : List Piece) : List Token := pieces.filterMap Piece.token?

end QueryDoc
