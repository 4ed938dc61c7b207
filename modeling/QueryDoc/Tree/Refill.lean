import QueryDoc.Tree.Children

/-! Putting edited children back into a node. The children come in the order of
`Node.children`, one entry for each, and `none` where a child was deleted. A
child must fit its slot, a required one cannot be deleted, and no selection set
is left empty. -/
namespace QueryDoc

/-- A reader of the entries for a node's children, from left to right. -/
abbrev Refill := StateT (List (Option Node)) (Except Error)

namespace Refill

/-- The entry for the next child. -/
def next : Refill (Option Node) := fun
  | [] => .ok (none, [])
  | entry :: rest => .ok (entry, rest)

/-- The next child, which its parent cannot do without. -/
def required (α : Type) [IsNode α] (parent : Kind) (slot : Segment) : Refill α := do
  match ← next with
  | some n => IsNode.expect α n
  | none => throw (.missingChild slot parent)

/-- The next child, if the node had one here and it was not deleted. -/
def optional (α : Type) [IsNode α] (present : Bool) : Refill (Option α) := do
  if present then
    match ← next with
    | some n => return some (← IsNode.expect α n)
    | none => return none
  else
    return none

/-- As many entries as a list had members, without the deleted ones. -/
def list (α : Type) [IsNode α] : Nat → Refill (List α)
  | 0 => return []
  | n + 1 => do
    match ← next with
    | some node =>
      let a ← IsNode.expect α node
      let as ← list α n
      return a :: as
    | none => list α n

/-- The type inside a non-null type, which must admit null itself. -/
def nullable : Refill TypeRef := do
  match ← required TypeRef .nonNullType .typeRef with
  | .nonNull _ => throw .doubledNonNull
  | t => return t

/-- The selections of a selection set, at least one. -/
def selections (count : Nat) : Refill (List Selection) := do
  match ← list Selection count with
  | [] => throw .emptiedSelectionSet
  | ss => return ss

/-- A type of the same shape around new children. -/
def typeRef : TypeRef → Refill TypeRef
  | .named _ => return .named ⟨← required Name .namedType .name⟩
  | .list _ => return .list (← required TypeRef .listType .typeRef)
  | .nonNull _ => return .nonNull (← nullable)

/-- A value of the same shape around new children. -/
def value : Value → Refill Value
  | .list vs => return .list (← list Value vs.length)
  | .object fs => return .object (← list ObjectField fs.length)
  | v => return v

/-- A node of the same kind, with the data of its own, around new children. -/
def node : Node → Refill Node
  | .document d => return .document ⟨← list Definition d.definitions.length⟩
  | .operationDefinition o => do
    let name ← optional Name o.name.isSome
    let declared ← list VariableDefinition o.variableDefinitions.length
    let directives ← list Directive o.directives.length
    let set ← required SelectionSet .operationDefinition .selectionSet
    return .operationDefinition ⟨o.operation, name, declared, directives, set⟩
  | .fragmentDefinition f => do
    let name ← required Name .fragmentDefinition .name
    let condition ← required NamedType .fragmentDefinition .typeCondition
    let directives ← list Directive f.directives.length
    let set ← required SelectionSet .fragmentDefinition .selectionSet
    return .fragmentDefinition ⟨name, condition, directives, set⟩
  | .variableDefinition v => do
    let declared ← required Variable .variableDefinition .variable
    let type ← required TypeRef .variableDefinition .typeRef
    let defaultValue ← optional Value v.defaultValue.isSome
    let directives ← list Directive v.directives.length
    return .variableDefinition ⟨declared, type, defaultValue, directives⟩
  | .selectionSet s => return .selectionSet ⟨← selections s.selections.length⟩
  | .field f => do
    let aliasName ← optional Name f.aliasName.isSome
    let name ← required Name .field .name
    let arguments ← list Argument f.arguments.length
    let directives ← list Directive f.directives.length
    let set ← optional SelectionSet f.selectionSet.isSome
    return .field ⟨aliasName, name, arguments, directives, set⟩
  | .fragmentSpread s => do
    let name ← required Name .fragmentSpread .name
    let directives ← list Directive s.directives.length
    return .fragmentSpread ⟨name, directives⟩
  | .inlineFragment f => do
    let condition ← optional NamedType f.typeCondition.isSome
    let directives ← list Directive f.directives.length
    let set ← required SelectionSet .inlineFragment .selectionSet
    return .inlineFragment ⟨condition, directives, set⟩
  | .argument _ => do
    let name ← required Name .argument .name
    let value ← required Value .argument .value
    return .argument ⟨name, value⟩
  | .directive d => do
    let name ← required Name .directive .name
    let arguments ← list Argument d.arguments.length
    return .directive ⟨name, arguments⟩
  | .variable _ => return .variable ⟨← required Name .variable .name⟩
  | .namedType _ => return .namedType ⟨← required Name .namedType .name⟩
  | .typeRef t => return .typeRef (← typeRef t)
  | .value v => return .value (← value v)
  | .objectField _ => do
    let name ← required Name .objectField .name
    let value ← required Value .objectField .value
    return .objectField ⟨name, value⟩
  | .name n => return .name n

end Refill

/-- Rebuilds a node around new entries for its children. -/
def Node.refill (n : Node) (entries : List (Option Node)) : Except Error Node :=
  (Refill.node n).run' entries

end QueryDoc
