import QueryDoc.Tree.Node

/-! The children of a node in the order in which a walk meets them, each with
its key: the name of a slot, a position in a list, or both. -/
namespace QueryDoc

/-- A child of a node and the segments that lead to it. -/
structure Child where
  key : List Segment
  node : Node
deriving DecidableEq

namespace Child

def single (slot : Segment) (n : Node) : List Child := [⟨[slot], n⟩]

def optional (slot : Segment) (n : Option Node) : List Child :=
  match n with
  | some n => single slot n
  | none => []

/-- The members of a list, counted from a number, below the segments of the
list. -/
def listFrom (slot : List Segment) : Nat → List Node → List Child
  | _, [] => []
  | i, n :: ns => ⟨slot ++ [.index i], n⟩ :: listFrom slot (i + 1) ns

/-- The members of a list in a named slot. -/
def list (slot : Segment) (ns : List Node) : List Child := listFrom [slot] 0 ns

/-- The members of a list that is all that its node holds. -/
def members (ns : List Node) : List Child := listFrom [] 0 ns

end Child

namespace Node
open Child IsNode

/-- The children of a value; those of a variable are found on its plain form. -/
def childrenOfValue : Value → List Child
  | .list vs => members (vs.map toNode)
  | .object fs => members (fs.map toNode)
  | _ => []

def childrenOfTypeRef : TypeRef → List Child
  | .named t => single .name (.name t.name)
  | .list item => single .typeRef (toNode item)
  | .nonNull inner => single .typeRef (toNode inner)

/-- The children of a node. -/
def children : Node → List Child
  | .document d => members (d.definitions.map toNode)
  | .operationDefinition o =>
    optional .name (o.name.map toNode)
      ++ list .variableDefinitions (o.variableDefinitions.map toNode)
      ++ list .directives (o.directives.map toNode)
      ++ single .selectionSet (toNode o.selectionSet)
  | .fragmentDefinition f =>
    single .name (toNode f.name)
      ++ single .typeCondition (toNode f.typeCondition)
      ++ list .directives (f.directives.map toNode)
      ++ single .selectionSet (toNode f.selectionSet)
  | .variableDefinition v =>
    single .variable (toNode v.declared)
      ++ single .typeRef (toNode v.type)
      ++ optional .defaultValue (v.defaultValue.map toNode)
      ++ list .directives (v.directives.map toNode)
  | .selectionSet s => members (s.selections.map toNode)
  | .field f =>
    optional .aliasName (f.aliasName.map toNode)
      ++ single .name (toNode f.name)
      ++ list .arguments (f.arguments.map toNode)
      ++ list .directives (f.directives.map toNode)
      ++ optional .selectionSet (f.selectionSet.map toNode)
  | .fragmentSpread s =>
    single .name (toNode s.name) ++ list .directives (s.directives.map toNode)
  | .inlineFragment f =>
    optional .typeCondition (f.typeCondition.map toNode)
      ++ list .directives (f.directives.map toNode)
      ++ single .selectionSet (toNode f.selectionSet)
  | .argument a => single .name (toNode a.name) ++ single .value (toNode a.value)
  | .directive d =>
    single .name (toNode d.name) ++ list .arguments (d.arguments.map toNode)
  | .variable v => single .name (toNode v.name)
  | .namedType t => single .name (toNode t.name)
  | .typeRef t => childrenOfTypeRef t
  | .value v => childrenOfValue v
  | .objectField f => single .name (toNode f.name) ++ single .value (toNode f.value)
  | .name _ => []

end Node
end QueryDoc
