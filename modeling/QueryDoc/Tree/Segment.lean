/-! The keys under which nodes hold their children: the name of a slot, or the
position of a child in a list. -/
namespace QueryDoc

/-- One step from a node to a child of it. -/
inductive Segment where
  | index (n : Nat)
  | aliasName
  | arguments
  | defaultValue
  | directives
  | name
  | selectionSet
  | typeRef
  | typeCondition
  | value
  | variable
  | variableDefinitions
deriving DecidableEq, Repr

namespace Segment

/-- The spelling of a segment; a position is spelled in decimal. -/
def toText : Segment → String
  | .index n => Nat.repr n
  | .aliasName => "alias"
  | .arguments => "arguments"
  | .defaultValue => "defaultValue"
  | .directives => "directives"
  | .name => "name"
  | .selectionSet => "selectionSet"
  | .typeRef => "type"
  | .typeCondition => "typeCondition"
  | .value => "value"
  | .variable => "variable"
  | .variableDefinitions => "variableDefinitions"

/-- The segments that name a slot. -/
def slots : List Segment :=
  [.aliasName, .arguments, .defaultValue, .directives, .name, .selectionSet, .typeRef,
   .typeCondition, .value, .variable, .variableDefinitions]

/-- Whether a segment is a position in a list. -/
def isIndex : Segment → Bool
  | .index _ => true
  | _ => false

end Segment
end QueryDoc
