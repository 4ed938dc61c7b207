import QueryDoc.Print.Piece
import QueryDoc.Tree.TypeRef

/-! The printed form of names, values and types, which never breaks a line. -/
namespace QueryDoc

namespace Name

def pieces (n : Name) : List Piece := [.name n.text]

end Name

namespace Variable

def pieces (v : Variable) : List Piece := [.token .dollar, .name v.name.text]

end Variable

/-- The terminal of a string: a block only where its content can stand in one. -/
def stringToken (content : String) (block : Bool) : Token :=
  .string content (block && Quoted.fitsBlock content.toList)

/-- Printed forms with commas between them. -/
def joinPieces : List (List Piece) → List Piece
  | [] => []
  | [p] => p
  | p :: ps => p ++ .comma :: joinPieces ps

mutual

def Value.pieces : Value → List Piece
  | .null => [.name "null"]
  | .boolean true => [.name "true"]
  | .boolean false => [.name "false"]
  | .int text => [.token (.number text)]
  | .float text => [.token (.number text)]
  | .string content block => [.token (stringToken content block)]
  | .enum text => [.name text]
  | .variable v => v.pieces
  | .list vs => .token .bracketL :: joinPieces (Value.piecesList vs) ++ [.token .bracketR]
  | .object fs => .token .braceL :: joinPieces (Value.piecesFields fs) ++ [.token .braceR]

def Value.piecesList : List Value → List (List Piece)
  | [] => []
  | v :: vs => v.pieces :: Value.piecesList vs

def Value.piecesFields : List ObjectField → List (List Piece)
  | [] => []
  | ⟨n, v⟩ :: fs =>
    (.name n.text :: .token .colon :: .space :: v.pieces) :: Value.piecesFields fs

end

namespace ObjectField

def pieces (f : ObjectField) : List Piece :=
  .name f.name.text :: .token .colon :: .space :: f.value.pieces

end ObjectField

namespace NamedType

def pieces (t : NamedType) : List Piece := [.name t.name.text]

end NamedType

namespace TypeRef

def pieces : TypeRef → List Piece
  | .named t => t.pieces
  | .list item => .token .bracketL :: item.pieces ++ [.token .bracketR]
  | .nonNull inner => inner.pieces ++ [.token .bang]

end TypeRef
end QueryDoc
