import QueryDoc.Grammar.Literal
import QueryDoc.Tree.Operation

/-! The rules for selections, operations, fragments and documents. -/
namespace QueryDoc.Rule

def argument : Rule Argument := do
  let name ← name
  token .colon .argument
  return ⟨name, ← value⟩

/-- Arguments in parentheses; empty parentheses are none. -/
def arguments : Rule (List Argument) := do
  let found ← optional do
    token .parenL .arguments
    let arguments ← many1 argument
    token .parenR .arguments
    return arguments
  return found.getD []

def directive : Rule Directive := do
  token .atSign .directive
  let name ← name
  return ⟨name, ← arguments⟩

def directives : Rule (List Directive) := many directive

/-- A field whose selection set is read by a rule of its own. -/
def fieldOf (members : Rule SelectionSet) : Rule Field := do
  let first ← name
  let second ← optional do
    token .colon .field
    name
  let arguments ← arguments
  let directives ← directives
  let set ← optional members
  match second with
  | some name => return ⟨some first, name, arguments, directives, set⟩
  | none => return ⟨none, first, arguments, directives, set⟩

def fragmentSpread : Rule FragmentSpread := do
  token .spread .fragmentSpread
  notFollowedBy .fragmentSpread (keyword "on" .fragmentSpread)
  let name ← name
  return ⟨name, ← directives⟩

/-- An inline fragment whose selection set is read by a rule of its own. -/
def inlineFragmentOf (members : Rule SelectionSet) : Rule InlineFragment := do
  token .spread .inlineFragment
  let condition ← optional do
    keyword "on" .inlineFragment
    namedType
  let directives ← directives
  return ⟨condition, directives, ← members⟩

/-- A selection whose selection set is read by a rule of its own. -/
def selectionOf (members : Rule SelectionSet) : Rule Selection :=
  orElse (attempt do return .fragmentSpread (← fragmentSpread)) <|
  orElse (attempt do return .inlineFragment (← inlineFragmentOf members)) <|
  expecting .selection (attempt do return .field (← fieldOf members))

/-- A selection set whose inner selection sets are read by a rule of their own. -/
def selectionSetOf (members : Rule SelectionSet) : Rule SelectionSet := do
  token .braceL .selectionSet
  let selections ← many1 (selectionOf members)
  token .braceR .selectionSet
  return ⟨selections⟩

/-- A selection set; inner selection sets start later in the text. -/
def selectionSet : Rule SelectionSet := fun input =>
  selectionSetOf (within input .selectionSet fun rest _ => selectionSet rest) input
termination_by input => input.length

def field : Rule Field := fieldOf selectionSet

def inlineFragment : Rule InlineFragment := inlineFragmentOf selectionSet

def selection : Rule Selection := selectionOf selectionSet

def variableDefinition : Rule VariableDefinition := do
  let declared ← variableRef
  token .colon .variableDefinition
  let type ← typeRef
  let defaultValue ← optional do
    token .equals .variableDefinition
    value
  return ⟨declared, type, defaultValue, ← directives⟩

def fragmentDefinition : Rule FragmentDefinition := do
  keyword "fragment" .fragmentDefinition
  notFollowedBy .fragmentDefinition (keyword "on" .fragmentDefinition)
  let name ← name
  keyword "on" .fragmentDefinition
  let condition ← namedType
  let directives ← directives
  return ⟨name, condition, directives, ← selectionSet⟩

def operationKind : Rule OperationKind :=
  orElse (do keyword "query" .operationKind; return .query) <|
  orElse (do keyword "mutation" .operationKind; return .mutation) <|
  do keyword "subscription" .operationKind; return .subscription

/-- Variable definitions in parentheses; empty parentheses are none. -/
def variableDefinitions : Rule (List VariableDefinition) := do
  let found ← optional do
    token .parenL .variableDefinitions
    let definitions ← many1 variableDefinition
    token .parenR .variableDefinitions
    return definitions
  return found.getD []

def operationDefinition : Rule OperationDefinition := do
  let operation ← operationKind
  let name ← optional name
  let declared ← variableDefinitions
  let directives ← directives
  return ⟨operation, name, declared, directives, ← selectionSet⟩

def definition : Rule Definition :=
  orElse (attempt do return .operation (← operationDefinition)) <|
  expecting .definition (attempt do return .fragment (← fragmentDefinition))

/-- A selection set alone, as an anonymous query. -/
def queryShorthand : Rule OperationDefinition := do
  return .ofSelectionSet (← selectionSet)

/-- A document is a selection set alone, or one or more definitions. -/
def document : Rule Document :=
  orElse (do return ⟨[.operation (← attempt queryShorthand)]⟩)
    (do return ⟨← expecting .document (many1 definition)⟩)

end QueryDoc.Rule
