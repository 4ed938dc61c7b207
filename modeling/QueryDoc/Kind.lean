/-! The kinds of construct in a query document. A kind names what a tree node
is and what a reader expected where it failed; some kinds only name a part of
the grammar, such as a parenthesised list of arguments, and no node has them. -/
namespace QueryDoc

/-- What a construct of the query language is. -/
inductive Kind where
  | document
  | definition
  | operationDefinition
  | operationKind
  | fragmentDefinition
  | variableDefinitions
  | variableDefinition
  | typeRef
  | namedType
  | listType
  | nonNullType
  | selectionSet
  | selection
  | field
  | fragmentSpread
  | inlineFragment
  | directives
  | directive
  | arguments
  | argument
  | name
  | variable
  | value
  | nullValue
  | booleanValue
  | intValue
  | floatValue
  | stringValue
  | enumValue
  | listValue
  | objectValue
  | objectField
deriving DecidableEq, Repr

namespace Kind

/-- The identifier of a kind, as tools that exchange trees spell it. -/
def id : Kind → String
  | .document => "Document"
  | .definition => "Definition"
  | .operationDefinition => "OperationDefinition"
  | .operationKind => "OperationKind"
  | .fragmentDefinition => "FragmentDefinition"
  | .variableDefinitions => "VariableDefinitions"
  | .variableDefinition => "VariableDefinition"
  | .typeRef => "Type"
  | .namedType => "NamedType"
  | .listType => "ListType"
  | .nonNullType => "NonNullType"
  | .selectionSet => "SelectionSet"
  | .selection => "Selection"
  | .field => "Field"
  | .fragmentSpread => "FragmentSpread"
  | .inlineFragment => "InlineFragment"
  | .directives => "Directives"
  | .directive => "Directive"
  | .arguments => "Arguments"
  | .argument => "Argument"
  | .name => "Name"
  | .variable => "Variable"
  | .value => "Value"
  | .nullValue => "NullValue"
  | .booleanValue => "BooleanValue"
  | .intValue => "IntValue"
  | .floatValue => "FloatValue"
  | .stringValue => "StringValue"
  | .enumValue => "EnumValue"
  | .listValue => "ListValue"
  | .objectValue => "ObjectValue"
  | .objectField => "ObjectField"

/-- The name of a kind in messages to people. -/
def label : Kind → String
  | .document => "Document"
  | .definition => "Definition"
  | .operationDefinition => "Operation Definition"
  | .operationKind => "Operation Kind"
  | .fragmentDefinition => "Fragment Definition"
  | .variableDefinitions => "Variable Definitions"
  | .variableDefinition => "Variable Definition"
  | .typeRef => "Type"
  | .namedType => "Type Name"
  | .listType => "List Type"
  | .nonNullType => "Non-null Type"
  | .selectionSet => "Selection Set"
  | .selection => "Selection"
  | .field => "Field"
  | .fragmentSpread => "Fragment Spread"
  | .inlineFragment => "Inline Fragment"
  | .directives => "Directives"
  | .directive => "Directive"
  | .arguments => "Arguments"
  | .argument => "Argument"
  | .name => "Name"
  | .variable => "Variable"
  | .value => "Value"
  | .nullValue => "Null"
  | .booleanValue => "Boolean"
  | .intValue => "Integer"
  | .floatValue => "Float"
  | .stringValue => "String"
  | .enumValue => "Enum"
  | .listValue => "List"
  | .objectValue => "Object"
  | .objectField => "Object Field"

/-- Every kind, in the order of declaration. -/
def all : List Kind :=
  [.document, .definition, .operationDefinition, .operationKind, .fragmentDefinition,
   .variableDefinitions, .variableDefinition, .typeRef, .namedType, .listType,
   .nonNullType, .selectionSet, .selection, .field, .fragmentSpread, .inlineFragment,
   .directives, .directive, .arguments, .argument, .name, .variable, .value,
   .nullValue, .booleanValue, .intValue, .floatValue, .stringValue, .enumValue,
   .listValue, .objectValue, .objectField]

/-- The kind with a given identifier. -/
def ofId? (s : String) : Option Kind := all.find? (·.id == s)

theorem mem_all (k : Kind) : k ∈ all := by cases k <;> decide

end Kind
end QueryDoc
