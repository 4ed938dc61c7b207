import QueryDoc.Grammar.Definition
import QueryDoc.Grammar.Failure
import QueryDoc.Tree.Node

/-! Reading whole source texts. A production is a rule that may stand for a
whole text; an entry names a production whose result is a node. -/
namespace QueryDoc

/-- A rule with the kind of what it reads. -/
structure Production (α : Type) where
  kind : Kind
  rule : Rule α

namespace Production

variable {α : Type}

/-- The rule for a whole text: nothing may follow. -/
def whole (p : Production α) : Rule α :=
  Rule.attempt do
    let a ← p.rule
    Rule.finish p.kind
    return a

/-- Reads a source text. -/
def parse (p : Production α) (source : String) : Except Failure α :=
  let lexemes := Lexer.lex source
  let outcome := p.whole (lexemes.map (·.token))
  match outcome.result with
  | .ok (a, _) => .ok a
  | .error _ => .error (.ofTrail p.kind source lexemes outcome.trail)

def document : Production Document := ⟨.document, Rule.document⟩
def value : Production Value := ⟨.value, Rule.value⟩
def typeRef : Production TypeRef := ⟨.typeRef, Rule.typeRef⟩
def objectValue : Production Value := ⟨.objectValue, Rule.object⟩
def listValue : Production Value := ⟨.listValue, Rule.list⟩
def operationKind : Production OperationKind := ⟨.operationKind, Rule.operationKind⟩

end Production

/-- The constructs that a source text can be read as. -/
inductive Entry where
  | document
  | definition
  | operationDefinition
  | fragmentDefinition
  | variableDefinition
  | typeRef
  | namedType
  | selectionSet
  | selection
  | field
  | fragmentSpread
  | inlineFragment
  | directive
  | argument
  | name
  | variable
  | value
  | booleanValue
  | intValue
  | floatValue
  | stringValue
  | enumValue
  | listValue
  | objectValue
  | objectField
deriving DecidableEq, Repr

namespace Entry
open IsNode

def kind : Entry → Kind
  | .document => .document
  | .definition => .definition
  | .operationDefinition => .operationDefinition
  | .fragmentDefinition => .fragmentDefinition
  | .variableDefinition => .variableDefinition
  | .typeRef => .typeRef
  | .namedType => .namedType
  | .selectionSet => .selectionSet
  | .selection => .selection
  | .field => .field
  | .fragmentSpread => .fragmentSpread
  | .inlineFragment => .inlineFragment
  | .directive => .directive
  | .argument => .argument
  | .name => .name
  | .variable => .variable
  | .value => .value
  | .booleanValue => .booleanValue
  | .intValue => .intValue
  | .floatValue => .floatValue
  | .stringValue => .stringValue
  | .enumValue => .enumValue
  | .listValue => .listValue
  | .objectValue => .objectValue
  | .objectField => .objectField

/-- Reads by a rule and sees the result as a node. -/
def seen {α : Type} [IsNode α] (r : Rule α) : Rule Node := do return toNode (← r)

def rule : Entry → Rule Node
  | .document => seen Rule.document
  | .definition => seen Rule.definition
  | .operationDefinition => seen Rule.operationDefinition
  | .fragmentDefinition => seen Rule.fragmentDefinition
  | .variableDefinition => seen Rule.variableDefinition
  | .typeRef => seen Rule.typeRef
  | .namedType => seen Rule.namedType
  | .selectionSet => seen Rule.selectionSet
  | .selection => seen Rule.selection
  | .field => seen Rule.field
  | .fragmentSpread => seen Rule.fragmentSpread
  | .inlineFragment => seen Rule.inlineFragment
  | .directive => seen Rule.directive
  | .argument => seen Rule.argument
  | .name => seen Rule.name
  | .variable => seen Rule.variableRef
  | .value => seen Rule.value
  | .booleanValue => seen Rule.boolean
  | .intValue => seen Rule.int
  | .floatValue => seen Rule.float
  | .stringValue => seen Rule.string
  | .enumValue => seen Rule.enum
  | .listValue => seen Rule.list
  | .objectValue => seen Rule.object
  | .objectField => seen Rule.objectField

def production (e : Entry) : Production Node := ⟨e.kind, e.rule⟩

/-- Reads a source text as a construct. -/
def parse (e : Entry) (source : String) : Except Failure Node := e.production.parse source

/-- Every construct that a source text can be read as. -/
def all : List Entry :=
  [.document, .definition, .operationDefinition, .fragmentDefinition, .variableDefinition,
   .typeRef, .namedType, .selectionSet, .selection, .field, .fragmentSpread, .inlineFragment,
   .directive, .argument, .name, .variable, .value, .booleanValue, .intValue, .floatValue,
   .stringValue, .enumValue, .listValue, .objectValue, .objectField]

/-- The construct whose kind has a given identifier. -/
def ofId? (s : String) : Option Entry := all.find? (·.kind.id == s)

end Entry
end QueryDoc
