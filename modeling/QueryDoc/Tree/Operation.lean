import QueryDoc.Error
import QueryDoc.Tree.Selection

/-! Query documents: operations, with the variables they declare, and fragments. Of the
operations of a document one is chosen to be executed. -/
namespace QueryDoc

/-- What an operation does. -/
inductive OperationKind where
  | query
  | mutation
  | subscription
deriving DecidableEq, Repr

namespace OperationKind

/-- The word that introduces an operation of a kind. -/
def keyword : OperationKind → String
  | .query => "query"
  | .mutation => "mutation"
  | .subscription => "subscription"

/-- Every kind of operation. -/
def all : List OperationKind := [.query, .mutation, .subscription]

/-- The kind of operation that a word introduces. -/
def ofKeyword? (s : String) : Option OperationKind := all.find? (·.keyword == s)

theorem ofKeyword?_keyword (k : OperationKind) : ofKeyword? k.keyword = some k := by
  cases k <;> decide

end OperationKind

/-- The declaration of a variable of an operation. -/
structure VariableDefinition where
  declared : Variable
  type : TypeRef
  defaultValue : Option Value
  directives : List Directive
deriving DecidableEq

/-- An operation, where execution starts. -/
structure OperationDefinition where
  operation : OperationKind
  name : Option Name
  variableDefinitions : List VariableDefinition
  directives : List Directive
  selectionSet : SelectionSet
deriving DecidableEq

namespace OperationDefinition

/-- The anonymous query that a selection set alone stands for. -/
def ofSelectionSet (s : SelectionSet) : OperationDefinition := ⟨.query, none, [], [], s⟩

/-- Whether an operation says no more than its selection set. -/
def isShorthand (o : OperationDefinition) : Bool :=
  o.operation == .query && o.name.isNone && o.variableDefinitions.isEmpty
    && o.directives.isEmpty

end OperationDefinition

/-- A named fragment. -/
structure FragmentDefinition where
  name : Name
  typeCondition : NamedType
  directives : List Directive
  selectionSet : SelectionSet
deriving DecidableEq

/-- A member of a document. -/
inductive Definition where
  | operation (o : OperationDefinition)
  | fragment (f : FragmentDefinition)
deriving DecidableEq

namespace Definition

def operation? : Definition → Option OperationDefinition
  | .operation o => some o
  | .fragment _ => none

def fragment? : Definition → Option FragmentDefinition
  | .operation _ => none
  | .fragment f => some f

def directives : Definition → List Directive
  | .operation o => o.directives
  | .fragment f => f.directives

end Definition

/-- A query document. -/
structure Document where
  definitions : List Definition
deriving DecidableEq

namespace Document

def operations (d : Document) : List OperationDefinition := d.definitions.filterMap (·.operation?)

def fragments (d : Document) : List FragmentDefinition := d.definitions.filterMap (·.fragment?)

/-- The fragment of a name; of several the last one counts. -/
def fragment? (d : Document) (name : String) : Option FragmentDefinition :=
  d.fragments.reverse.find? (·.name.text == name)

/-- The first operation of a given name or, where no name is given, the only
operation of the document. -/
def operation (d : Document) : Option String → Except Error OperationDefinition
  | some name =>
    match d.operations.find? (·.name == some ⟨name⟩) with
    | some o => .ok o
    | none => .error (.noSuchOperation name)
  | none =>
    match d.operations with
    | [] => .error .noOperation
    | [o] => .ok o
    | _ => .error .severalOperations

end Document
end QueryDoc
