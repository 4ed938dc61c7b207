import QueryDoc.Error
import QueryDoc.Tree.Operation

/-! One type for every node of a tree. A variable may stand in it as itself or
as a value, and a named type as itself or as a type; `Node.plain` picks the
first form. A typed part of a tree is read back from a node by `IsNode.expect`,
which says what was expected and what was found instead. -/
namespace QueryDoc

/-- Any node of a tree. -/
inductive Node where
  | document (d : Document)
  | operationDefinition (o : OperationDefinition)
  | fragmentDefinition (f : FragmentDefinition)
  | variableDefinition (v : VariableDefinition)
  | selectionSet (s : SelectionSet)
  | field (f : Field)
  | fragmentSpread (s : FragmentSpread)
  | inlineFragment (f : InlineFragment)
  | argument (a : Argument)
  | directive (d : Directive)
  | variable (v : Variable)
  | name (n : Name)
  | namedType (t : NamedType)
  | typeRef (t : TypeRef)
  | value (v : Value)
  | objectField (f : ObjectField)
deriving DecidableEq

namespace Value

def kind : Value → Kind
  | .null => .nullValue
  | .boolean _ => .booleanValue
  | .int _ => .intValue
  | .float _ => .floatValue
  | .string .. => .stringValue
  | .enum _ => .enumValue
  | .variable _ => .variable
  | .list _ => .listValue
  | .object _ => .objectValue

end Value

namespace TypeRef

def kind : TypeRef → Kind
  | .named _ => .namedType
  | .list _ => .listType
  | .nonNull _ => .nonNullType

end TypeRef

namespace Node

/-- The kind of a node; it does not depend on the form of a variable or of a
named type. -/
def kind : Node → Kind
  | .document _ => .document
  | .operationDefinition _ => .operationDefinition
  | .fragmentDefinition _ => .fragmentDefinition
  | .variableDefinition _ => .variableDefinition
  | .selectionSet _ => .selectionSet
  | .field _ => .field
  | .fragmentSpread _ => .fragmentSpread
  | .inlineFragment _ => .inlineFragment
  | .argument _ => .argument
  | .directive _ => .directive
  | .variable _ => .variable
  | .name _ => .name
  | .namedType _ => .namedType
  | .typeRef t => t.kind
  | .value v => v.kind
  | .objectField _ => .objectField

/-- The node of a value: a variable stands for itself. -/
def ofValue : Value → Node
  | .variable v => .variable v
  | v => .value v

/-- The node of a type: a named type stands for itself. -/
def ofTypeRef : TypeRef → Node
  | .named t => .namedType t
  | t => .typeRef t

def ofSelection : Selection → Node
  | .field f => .field f
  | .fragmentSpread s => .fragmentSpread s
  | .inlineFragment f => .inlineFragment f

def ofDefinition : Definition → Node
  | .operation o => .operationDefinition o
  | .fragment f => .fragmentDefinition f

/-- The form in which variables and named types stand for themselves. -/
def plain : Node → Node
  | .value v => ofValue v
  | .typeRef t => ofTypeRef t
  | n => n

/-- Only a value that is a variable and a type that is a named one have another plain form. -/
theorem plain_cases (n : Node) :
    n.plain = n ∨ (∃ x, n = .value (.variable x)) ∨ ∃ t, n = .typeRef (.named t) := by
  match n with
  | .value (.variable x) => exact .inr (.inl ⟨x, rfl⟩)
  | .typeRef (.named t) => exact .inr (.inr ⟨t, rfl⟩)
  | .value .null | .value (.boolean _) | .value (.int _) | .value (.float _)
  | .value (.string ..) | .value (.enum _) | .value (.list _) | .value (.object _)
  | .typeRef (.list _) | .typeRef (.nonNull _)
  | .document _ | .operationDefinition _ | .fragmentDefinition _ | .variableDefinition _
  | .selectionSet _ | .field _ | .fragmentSpread _ | .inlineFragment _ | .argument _
  | .directive _ | .variable _ | .name _ | .namedType _ | .objectField _ => exact .inl rfl

@[simp] theorem plain_plain (n : Node) : n.plain.plain = n.plain := by
  match n with
  | .value v => cases v <;> rfl
  | .typeRef t => cases t <;> rfl
  | .document _ | .operationDefinition _ | .fragmentDefinition _ | .variableDefinition _
  | .selectionSet _ | .field _ | .fragmentSpread _ | .inlineFragment _ | .argument _
  | .directive _ | .variable _ | .name _ | .namedType _ | .objectField _ => rfl

@[simp] theorem kind_plain (n : Node) : n.plain.kind = n.kind := by
  match n with
  | .value v => cases v <;> rfl
  | .typeRef t => cases t <;> rfl
  | .document _ | .operationDefinition _ | .fragmentDefinition _ | .variableDefinition _
  | .selectionSet _ | .field _ | .fragmentSpread _ | .inlineFragment _ | .argument _
  | .directive _ | .variable _ | .name _ | .namedType _ | .objectField _ => rfl

end Node

/-- The parts of a tree that are nodes: how a part is seen as a node, which
nodes are seen as such a part, and what the part is called where it is missed. -/
class IsNode (α : Type) where
  toNode : α → Node
  ofNode? : Node → Option α
  expected : Kind
  ofNode?_toNode : ∀ a, ofNode? (toNode a) = some a

namespace IsNode

instance : IsNode Document where
  toNode := .document
  ofNode? | .document d => some d | _ => none
  expected := .document
  ofNode?_toNode _ := rfl

instance : IsNode OperationDefinition where
  toNode := .operationDefinition
  ofNode? | .operationDefinition o => some o | _ => none
  expected := .operationDefinition
  ofNode?_toNode _ := rfl

instance : IsNode FragmentDefinition where
  toNode := .fragmentDefinition
  ofNode? | .fragmentDefinition f => some f | _ => none
  expected := .fragmentDefinition
  ofNode?_toNode _ := rfl

instance : IsNode Definition where
  toNode := Node.ofDefinition
  ofNode?
    | .operationDefinition o => some (.operation o)
    | .fragmentDefinition f => some (.fragment f)
    | _ => none
  expected := .definition
  ofNode?_toNode d := by cases d <;> rfl

instance : IsNode VariableDefinition where
  toNode := .variableDefinition
  ofNode? | .variableDefinition v => some v | _ => none
  expected := .variableDefinition
  ofNode?_toNode _ := rfl

instance : IsNode SelectionSet where
  toNode := .selectionSet
  ofNode? | .selectionSet s => some s | _ => none
  expected := .selectionSet
  ofNode?_toNode _ := rfl

instance : IsNode Field where
  toNode := .field
  ofNode? | .field f => some f | _ => none
  expected := .field
  ofNode?_toNode _ := rfl

instance : IsNode FragmentSpread where
  toNode := .fragmentSpread
  ofNode? | .fragmentSpread s => some s | _ => none
  expected := .fragmentSpread
  ofNode?_toNode _ := rfl

instance : IsNode InlineFragment where
  toNode := .inlineFragment
  ofNode? | .inlineFragment f => some f | _ => none
  expected := .inlineFragment
  ofNode?_toNode _ := rfl

instance : IsNode Selection where
  toNode := Node.ofSelection
  ofNode?
    | .field f => some (.field f)
    | .fragmentSpread s => some (.fragmentSpread s)
    | .inlineFragment f => some (.inlineFragment f)
    | _ => none
  expected := .selection
  ofNode?_toNode s := by cases s <;> rfl

instance : IsNode Argument where
  toNode := .argument
  ofNode? | .argument a => some a | _ => none
  expected := .argument
  ofNode?_toNode _ := rfl

instance : IsNode Directive where
  toNode := .directive
  ofNode? | .directive d => some d | _ => none
  expected := .directive
  ofNode?_toNode _ := rfl

instance : IsNode ObjectField where
  toNode := .objectField
  ofNode? | .objectField f => some f | _ => none
  expected := .objectField
  ofNode?_toNode _ := rfl

instance : IsNode Name where
  toNode := .name
  ofNode? | .name n => some n | _ => none
  expected := .name
  ofNode?_toNode _ := rfl

instance : IsNode Variable where
  toNode := .variable
  ofNode? | .variable v => some v | .value (.variable v) => some v | _ => none
  expected := .variable
  ofNode?_toNode _ := rfl

instance : IsNode NamedType where
  toNode := .namedType
  ofNode? | .namedType t => some t | .typeRef (.named t) => some t | _ => none
  expected := .namedType
  ofNode?_toNode _ := rfl

instance : IsNode TypeRef where
  toNode := Node.ofTypeRef
  ofNode? | .typeRef t => some t | .namedType t => some (.named t) | _ => none
  expected := .typeRef
  ofNode?_toNode t := by cases t <;> rfl

instance : IsNode Value where
  toNode := Node.ofValue
  ofNode? | .value v => some v | .variable v => some (.variable v) | _ => none
  expected := .value
  ofNode?_toNode v := by cases v <;> rfl

/-- Reads a node as a part of a given type. -/
def expect (α : Type) [IsNode α] (n : Node) : Except Error α :=
  match (ofNode? n : Option α) with
  | some a => .ok a
  | none => .error (.misfit (expected α) n.kind)

theorem expect_toNode {α : Type} [IsNode α] (a : α) : expect α (toNode a) = .ok a := by
  simp [expect, ofNode?_toNode]

end IsNode
end QueryDoc
