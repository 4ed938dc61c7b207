import QueryDoc.Grammar.Cursor
import QueryDoc.Grammar.Definition

/-! The productions of the grammar, by what they give, and what each of them is composed of, with
the productions it calls left open. Closed with the rules themselves that is the grammar over
terminals; closed level by level it moves a cursor over a source text. -/
namespace QueryDoc

/-- The productions of the grammar, by what they give. -/
inductive Symbol : Type → Type where
  | document : Symbol Document
  | definition : Symbol Definition
  | operationDefinition : Symbol OperationDefinition
  | operationKind : Symbol OperationKind
  | fragmentDefinition : Symbol FragmentDefinition
  | variableDefinition : Symbol VariableDefinition
  | typeRef : Symbol TypeRef
  | namedType : Symbol NamedType
  | selectionSet : Symbol SelectionSet
  | selection : Symbol Selection
  | field : Symbol Field
  | fragmentSpread : Symbol FragmentSpread
  | inlineFragment : Symbol InlineFragment
  | directive : Symbol Directive
  | argument : Symbol Argument
  | name : Symbol Name
  | variable : Symbol Variable
  | value : Symbol Value
  | booleanValue : Symbol Value
  | intValue : Symbol Value
  | floatValue : Symbol Value
  | stringValue : Symbol Value
  | enumValue : Symbol Value
  | listValue : Symbol Value
  | objectValue : Symbol Value
  | objectField : Symbol ObjectField

namespace Engine
variable {m : Type → Type} [Monad m] [Engine m]

def name : m Name :=
  terminal .name fun
    | .name text => some ⟨text⟩
    | _ => none

def null : m Value := do
  keyword "null" .nullValue
  return .null

def boolean : m Value :=
  orElse
    (do keyword "true" .booleanValue; return .boolean true)
    (do keyword "false" .booleanValue; return .boolean false)

def number : m Value :=
  terminal .intValue fun
    | .number text => some (if Numeral.isFloat text.toList then .float text else .int text)
    | _ => none

def int : m Value :=
  attempt do
    match ← number with
    | .int text => return .int text
    | _ => fail .intValue

def float : m Value :=
  attempt do
    match ← number with
    | .float text => return .float text
    | _ => fail .floatValue

def string : m Value :=
  terminal .stringValue fun
    | .string content block => some (.string content block)
    | _ => none

def enum : m Value :=
  terminal .enumValue fun
    | .name text => if text ∈ Name.reserved then none else some (.enum text)
    | _ => none

def operationKind : m OperationKind :=
  orElse (do keyword "query" .operationKind; return .query) <|
  orElse (do keyword "mutation" .operationKind; return .mutation) <|
  do keyword "subscription" .operationKind; return .subscription

end Engine

namespace Symbol
open Engine

def rule : {α : Type} → Symbol α → Rule α
  | _, .document => Rule.document
  | _, .definition => Rule.definition
  | _, .operationDefinition => Rule.operationDefinition
  | _, .operationKind => Rule.operationKind
  | _, .fragmentDefinition => Rule.fragmentDefinition
  | _, .variableDefinition => Rule.variableDefinition
  | _, .typeRef => Rule.typeRef
  | _, .namedType => Rule.namedType
  | _, .selectionSet => Rule.selectionSet
  | _, .selection => Rule.selection
  | _, .field => Rule.field
  | _, .fragmentSpread => Rule.fragmentSpread
  | _, .inlineFragment => Rule.inlineFragment
  | _, .directive => Rule.directive
  | _, .argument => Rule.argument
  | _, .name => Rule.name
  | _, .variable => Rule.variableRef
  | _, .value => Rule.value
  | _, .booleanValue => Rule.boolean
  | _, .intValue => Rule.int
  | _, .floatValue => Rule.float
  | _, .stringValue => Rule.string
  | _, .enumValue => Rule.enum
  | _, .listValue => Rule.list
  | _, .objectValue => Rule.object
  | _, .objectField => Rule.objectField

/-- What a production is composed of, around the calls of others. -/
def body {m : Type → Type} [Monad m] [Engine m] (call : {β : Type} → Symbol β → m β) :
    {α : Type} → Symbol α → m α
  | _, .document =>
    orElse (do return ⟨[.operation (← attempt do return .ofSelectionSet (← call .selectionSet))]⟩)
      (do return ⟨← expecting .document (many1 (call .definition))⟩)
  | _, .definition =>
    orElse (attempt do return .operation (← call .operationDefinition)) <|
    expecting .definition (attempt do return .fragment (← call .fragmentDefinition))
  | _, .operationDefinition => do
    let operation ← call .operationKind
    let name ← optional (call .name)
    let declared ← group .variableDefinitions (call .variableDefinition)
    let directives ← many (call .directive)
    return ⟨operation, name, declared, directives, ← call .selectionSet⟩
  | _, .operationKind => Engine.operationKind
  | _, .fragmentDefinition => do
    keyword "fragment" .fragmentDefinition
    notFollowedBy .fragmentDefinition (keyword "on" .fragmentDefinition)
    let name ← call .name
    keyword "on" .fragmentDefinition
    let condition ← call .namedType
    let directives ← many (call .directive)
    return ⟨name, condition, directives, ← call .selectionSet⟩
  | _, .variableDefinition => do
    let declared ← call .variable
    token .colon .variableDefinition
    let type ← call .typeRef
    let defaultValue ← optional do
      token .equals .variableDefinition
      call .value
    return ⟨declared, type, defaultValue, ← many (call .directive)⟩
  | _, .typeRef => do
    let core ←
      if ← takes .bracketL .listType then do
        let inner ← call .typeRef
        token .bracketR .listType
        pure (TypeRef.list inner)
      else do
        pure (TypeRef.named (← call .namedType))
    if ← takes .bang .nonNullType then return .nonNull core else return core
  | _, .namedType => do
    return ⟨← call .name⟩
  | _, .selectionSet => do
    token .braceL .selectionSet
    let selections ← many1 (call .selection)
    token .braceR .selectionSet
    return ⟨selections⟩
  | _, .selection =>
    orElse (attempt do return .fragmentSpread (← call .fragmentSpread)) <|
    orElse (attempt do return .inlineFragment (← call .inlineFragment)) <|
    expecting .selection (attempt do return .field (← call .field))
  | _, .field => do
    let first ← call .name
    let second ← optional do
      token .colon .field
      call .name
    let arguments ← group .arguments (call .argument)
    let directives ← many (call .directive)
    let set ← optional (call .selectionSet)
    match second with
    | some second => return ⟨some first, second, arguments, directives, set⟩
    | none => return ⟨none, first, arguments, directives, set⟩
  | _, .fragmentSpread => do
    token .spread .fragmentSpread
    notFollowedBy .fragmentSpread (keyword "on" .fragmentSpread)
    let name ← call .name
    return ⟨name, ← many (call .directive)⟩
  | _, .inlineFragment => do
    token .spread .inlineFragment
    let condition ← optional do
      keyword "on" .inlineFragment
      call .namedType
    let directives ← many (call .directive)
    return ⟨condition, directives, ← call .selectionSet⟩
  | _, .directive => do
    token .atSign .directive
    let name ← call .name
    return ⟨name, ← group .arguments (call .argument)⟩
  | _, .argument => do
    let name ← call .name
    token .colon .argument
    return ⟨name, ← call .value⟩
  | _, .name => Engine.name
  | _, .variable => do
    token .dollar .variable
    return ⟨← call .name⟩
  | _, .value =>
    orElse null <|
    orElse (call .booleanValue) <|
    orElse (attempt do return .variable (← call .variable)) <|
    orElse (call .stringValue) <|
    orElse number <|
    orElse (call .enumValue) <|
    orElse (attempt (call .listValue)) <|
    expecting .value (attempt (call .objectValue))
  | _, .booleanValue => Engine.boolean
  | _, .intValue => Engine.int
  | _, .floatValue => Engine.float
  | _, .stringValue => Engine.string
  | _, .enumValue => Engine.enum
  | _, .listValue => do
    token .bracketL .listValue
    let values ← many (call .value)
    token .bracketR .listValue
    return .list values
  | _, .objectValue => do
    token .braceL .objectValue
    let fields ← many (call .objectField)
    token .braceR .objectValue
    return .object fields
  | _, .objectField => do
    let name ← call .name
    token .colon .objectField
    return ⟨name, ← call .value⟩

/-- A production as an action, with calls nested up to a number of levels: one that would call
further does not come to an end. -/
def run : Nat → {α : Type} → Symbol α → Action α
  | 0, _, _ => fun _ => none
  | n + 1, _, s => s.body (run n)

end Symbol
end QueryDoc
