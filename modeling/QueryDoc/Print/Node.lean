import QueryDoc.Print.Literal
import QueryDoc.Tree.Node

/-! The printed form of nodes. Each selection has a line of its own, indented by
its depth; where a width is given, the arguments of a field whose head is longer
than that have lines of their own too. -/
namespace QueryDoc

/-- How to print. -/
structure PrintOptions where
  /-- The longest that the head of a field, which is its alias, name and
  arguments, may be in UTF-8 before its arguments are put on lines of their own. -/
  maxWidth : Option Nat
deriving DecidableEq, Repr

namespace PrintOptions

/-- Never folds arguments. -/
def default : PrintOptions := ⟨none⟩

end PrintOptions

namespace Argument

def pieces (a : Argument) : List Piece :=
  .name a.name.text :: .token .colon :: .space :: a.value.pieces

end Argument

/-- Arguments in parentheses, or nothing where there are none. -/
def argumentPieces (arguments : List Argument) : List Piece :=
  if arguments.isEmpty then []
  else .token .parenL :: joinPieces (arguments.map (·.pieces)) ++ [.token .parenR]

/-- Arguments in parentheses, each on a line of its own. -/
def foldedArgumentPieces (level : Nat) (arguments : List Argument) : List Piece :=
  .token .parenL :: arguments.flatMap (fun a => .line (level + 1) :: a.pieces)
    ++ [.line level, .token .parenR]

namespace Directive

def pieces (d : Directive) : List Piece :=
  .token .atSign :: .name d.name.text :: argumentPieces d.arguments

end Directive

/-- Directives, each after a space. -/
def directivePieces (directives : List Directive) : List Piece :=
  directives.flatMap fun d => .space :: d.pieces

/-- A field's alias and name. -/
def fieldNamePieces (aliasName : Option Name) (name : Name) : List Piece :=
  match aliasName with
  | some a => [.name a.text, .token .colon, .space, .name name.text]
  | none => [.name name.text]

/-- Whether pieces take up more than the width that is given, if any. -/
def exceeds (maxWidth : Option Nat) (pieces : List Piece) : Bool :=
  match maxWidth with
  | some width => utf8Length (render pieces) > width
  | none => false

/-- A field's alias, name and arguments. -/
def fieldHeadPieces (o : PrintOptions) (level : Nat) (aliasName : Option Name) (name : Name)
    (arguments : List Argument) : List Piece :=
  let names := fieldNamePieces aliasName name
  let head := names ++ argumentPieces arguments
  if exceeds o.maxWidth head && !arguments.isEmpty then
    names ++ foldedArgumentPieces level arguments
  else head

namespace FragmentSpread

def pieces (s : FragmentSpread) : List Piece :=
  .token .spread :: .name s.name.text :: directivePieces s.directives

end FragmentSpread

/-- A type condition, if there is one. -/
def conditionPieces : Option NamedType → List Piece
  | some t => .space :: .name "on" :: .space :: t.pieces
  | none => []

mutual

def Selection.pieces (o : PrintOptions) (level : Nat) : Selection → List Piece
  | .field f => f.pieces o level
  | .fragmentSpread s => s.pieces
  | .inlineFragment f => f.pieces o level

def Field.pieces (o : PrintOptions) (level : Nat) : Field → List Piece
  | ⟨aliasName, name, arguments, directives, set⟩ =>
    fieldHeadPieces o level aliasName name arguments ++ directivePieces directives
      ++ SelectionSet.piecesOption o level set

def InlineFragment.pieces (o : PrintOptions) (level : Nat) : InlineFragment → List Piece
  | ⟨condition, directives, set⟩ =>
    .token .spread :: conditionPieces condition ++ directivePieces directives
      ++ .space :: set.pieces o level

/-- A selection set without selections is printed as nothing. -/
def SelectionSet.pieces (o : PrintOptions) (level : Nat) : SelectionSet → List Piece
  | ⟨[]⟩ => []
  | ⟨s :: ss⟩ =>
    .token .braceL :: Selection.piecesList o (level + 1) (s :: ss)
      ++ [.line level, .token .braceR]

/-- The selection set of a field, after a space, where there is any to print. -/
def SelectionSet.piecesOption (o : PrintOptions) (level : Nat) :
    Option SelectionSet → List Piece
  | none => []
  | some s => if s.selections.isEmpty then [] else .space :: s.pieces o level

/-- Selections, each on a line of its own. -/
def Selection.piecesList (o : PrintOptions) (level : Nat) : List Selection → List Piece
  | [] => []
  | s :: ss => .line level :: s.pieces o level ++ Selection.piecesList o level ss

end

namespace VariableDefinition

/-- The default value of a variable, if there is one. -/
def defaultPieces : Option Value → List Piece
  | some v => .space :: .token .equals :: .space :: v.pieces
  | none => []

def pieces (v : VariableDefinition) : List Piece :=
  v.declared.pieces ++ .token .colon :: .space :: v.type.pieces
    ++ defaultPieces v.defaultValue ++ directivePieces v.directives

end VariableDefinition

namespace OperationDefinition

/-- The variables of an operation in parentheses, right after its name or after a
space where it has none. -/
def variablePieces (o : OperationDefinition) : List Piece :=
  if o.variableDefinitions.isEmpty then []
  else
    (if o.name.isNone then [.space] else [])
      ++ .token .parenL :: joinPieces (o.variableDefinitions.map (·.pieces))
      ++ [.token .parenR]

/-- The name of an operation, if it has one. -/
def namePieces : Option Name → List Piece
  | some n => [.space, .name n.text]
  | none => []

/-- What stands before the selection set of an operation. -/
def headPieces (o : OperationDefinition) : List Piece :=
  .name o.operation.keyword :: namePieces o.name ++ o.variablePieces
    ++ directivePieces o.directives ++ [.space]

/-- An operation; one that says no more than its selection set is printed as
that. -/
def pieces (options : PrintOptions) (level : Nat) (o : OperationDefinition) : List Piece :=
  if o.isShorthand then o.selectionSet.pieces options level
  else o.headPieces ++ o.selectionSet.pieces options level

end OperationDefinition

namespace FragmentDefinition

def pieces (o : PrintOptions) (level : Nat) (f : FragmentDefinition) : List Piece :=
  .name "fragment" :: .space :: .name f.name.text :: .space :: .name "on" :: .space
    :: f.typeCondition.pieces ++ directivePieces f.directives
    ++ .space :: f.selectionSet.pieces o level

end FragmentDefinition

namespace Definition

def pieces (o : PrintOptions) (level : Nat) : Definition → List Piece
  | .operation d => d.pieces o level
  | .fragment f => f.pieces o level

end Definition

namespace Document

/-- Definitions with empty lines between them. -/
def definitionPieces (o : PrintOptions) (level : Nat) : List Definition → List Piece
  | [] => []
  | [d] => d.pieces o level
  | d :: ds => d.pieces o level ++ .line 0 :: .line 0 :: definitionPieces o level ds

/-- A document ends its last line. -/
def pieces (o : PrintOptions) (level : Nat) (d : Document) : List Piece :=
  definitionPieces o level d.definitions ++ [.line 0]

end Document

namespace Node

/-- The printed form of a node whose lines are indented by a number of steps. -/
def pieces (o : PrintOptions) (level : Nat) : Node → List Piece
  | .document d => d.pieces o level
  | .operationDefinition d => d.pieces o level
  | .fragmentDefinition f => f.pieces o level
  | .variableDefinition v => v.pieces
  | .selectionSet s => s.pieces o level
  | .field f => f.pieces o level
  | .fragmentSpread s => s.pieces
  | .inlineFragment f => f.pieces o level
  | .argument a => a.pieces
  | .directive d => d.pieces
  | .variable v => v.pieces
  | .name n => n.pieces
  | .namedType t => t.pieces
  | .typeRef t => t.pieces
  | .value v => v.pieces
  | .objectField f => f.pieces

/-- The text of a node whose lines are indented by a number of steps. -/
def printAt (o : PrintOptions) (level : Nat) (n : Node) : String :=
  String.ofList (render (n.pieces o level))

def printWith (o : PrintOptions) (n : Node) : String := n.printAt o 0

/-- The text of a node, with default options. -/
def print (n : Node) : String := n.printWith .default

end Node
end QueryDoc
