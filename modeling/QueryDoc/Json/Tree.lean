import QueryDoc.Json.Basic
import QueryDoc.Tree.Node

/-! Trees as JSON. Every node is an object with its kind; a child that a node does
not have is null, and lists of children are arrays. -/
namespace QueryDoc

/-- The object of a node of a kind. -/
def Kind.toJson (k : Kind) (members : List (String × Json)) : Json :=
  Json.ofMembers (("kind", .string k.id) :: members)

namespace Name

def toTree (n : Name) : Json := Kind.toJson .name [("value", .string n.text)]

end Name

namespace Variable

def toTree (v : Variable) : Json := Kind.toJson .variable [("name", v.name.toTree)]

end Variable

namespace NamedType

def toTree (t : NamedType) : Json := Kind.toJson .namedType [("name", t.name.toTree)]

end NamedType

namespace TypeRef

def toTree : TypeRef → Json
  | .named t => t.toTree
  | .list item => Kind.toJson .listType [("type", item.toTree)]
  | .nonNull inner => Kind.toJson .nonNullType [("type", inner.toTree)]

end TypeRef

mutual

def Value.toTree : Value → Json
  | .null => Kind.toJson .nullValue []
  | .boolean b => Kind.toJson .booleanValue [("value", .bool b)]
  | .int text => Kind.toJson .intValue [("value", .string text)]
  | .float text => Kind.toJson .floatValue [("value", .string text)]
  | .string content block =>
    Kind.toJson .stringValue [("value", .string content), ("block", .bool block)]
  | .enum text => Kind.toJson .enumValue [("value", .string text)]
  | .variable v => v.toTree
  | .list vs => Kind.toJson .listValue [("values", .array (Value.toTreeList vs))]
  | .object fs => Kind.toJson .objectValue [("fields", .array (Value.toTreeFields fs))]

def Value.toTreeList : List Value → List Json
  | [] => []
  | v :: vs => v.toTree :: Value.toTreeList vs

def Value.toTreeFields : List ObjectField → List Json
  | [] => []
  | ⟨n, v⟩ :: fs =>
    Kind.toJson .objectField [("name", n.toTree), ("value", v.toTree)]
      :: Value.toTreeFields fs

end

namespace Argument

def toTree (a : Argument) : Json :=
  Kind.toJson .argument [("name", a.name.toTree), ("value", a.value.toTree)]

end Argument

namespace Directive

def toTree (d : Directive) : Json :=
  Kind.toJson .directive
    [("name", d.name.toTree), ("arguments", .array (d.arguments.map (·.toTree)))]

end Directive

namespace Json

/-- A child that may be missing. -/
def optional : Option Json → Json
  | some j => j
  | none => .null

/-- The member for the directives of a node. -/
def directives (ds : List Directive) : String × Json :=
  ("directives", .array (ds.map (·.toTree)))

end Json

namespace FragmentSpread

def toTree (s : FragmentSpread) : Json :=
  Kind.toJson .fragmentSpread [("name", s.name.toTree), Json.directives s.directives]

end FragmentSpread

mutual

def Selection.toTree : Selection → Json
  | .field f => f.toTree
  | .fragmentSpread s => s.toTree
  | .inlineFragment f => f.toTree

def Field.toTree : Field → Json
  | ⟨aliasName, name, arguments, directives, set⟩ =>
    Kind.toJson .field
      [("alias", Json.optional (aliasName.map (·.toTree))), ("name", name.toTree),
       ("arguments", .array (arguments.map (·.toTree))), Json.directives directives,
       ("selectionSet", SelectionSet.toTreeOption set)]

def InlineFragment.toTree : InlineFragment → Json
  | ⟨condition, directives, set⟩ =>
    Kind.toJson .inlineFragment
      [("typeCondition", Json.optional (condition.map (·.toTree))),
       Json.directives directives, ("selectionSet", set.toTree)]

def SelectionSet.toTree : SelectionSet → Json
  | ⟨selections⟩ =>
    Kind.toJson .selectionSet [("selections", .array (Selection.toTreeList selections))]

def SelectionSet.toTreeOption : Option SelectionSet → Json
  | none => .null
  | some s => s.toTree

def Selection.toTreeList : List Selection → List Json
  | [] => []
  | s :: ss => s.toTree :: Selection.toTreeList ss

end

namespace VariableDefinition

def toTree (v : VariableDefinition) : Json :=
  Kind.toJson .variableDefinition
    [("variable", v.declared.toTree), ("type", v.type.toTree),
     ("defaultValue", Json.optional (v.defaultValue.map (·.toTree))),
     Json.directives v.directives]

end VariableDefinition

namespace OperationDefinition

def toTree (o : OperationDefinition) : Json :=
  Kind.toJson .operationDefinition
    [("operation", .string o.operation.keyword),
     ("name", Json.optional (o.name.map (·.toTree))),
     ("variableDefinitions", .array (o.variableDefinitions.map (·.toTree))),
     Json.directives o.directives, ("selectionSet", o.selectionSet.toTree)]

end OperationDefinition

namespace FragmentDefinition

def toTree (f : FragmentDefinition) : Json :=
  Kind.toJson .fragmentDefinition
    [("name", f.name.toTree), ("typeCondition", f.typeCondition.toTree),
     Json.directives f.directives, ("selectionSet", f.selectionSet.toTree)]

end FragmentDefinition

namespace Definition

def toTree : Definition → Json
  | .operation o => o.toTree
  | .fragment f => f.toTree

end Definition

namespace Document

def toTree (d : Document) : Json :=
  Kind.toJson .document [("definitions", .array (d.definitions.map (·.toTree)))]

end Document

namespace Node

/-- A node and everything below it as JSON. -/
def toTree : Node → Json
  | .document d => d.toTree
  | .operationDefinition o => o.toTree
  | .fragmentDefinition f => f.toTree
  | .variableDefinition v => v.toTree
  | .selectionSet s => s.toTree
  | .field f => f.toTree
  | .fragmentSpread s => s.toTree
  | .inlineFragment f => f.toTree
  | .argument a => a.toTree
  | .directive d => d.toTree
  | .variable v => v.toTree
  | .name n => n.toTree
  | .namedType t => t.toTree
  | .typeRef t => t.toTree
  | .value v => v.toTree
  | .objectField f =>
    Kind.toJson .objectField [("name", f.name.toTree), ("value", f.value.toTree)]

end Node
end QueryDoc
