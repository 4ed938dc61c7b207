import QueryDoc.Proofs.Lexical.Escape
import QueryDoc.Tree.Node

/-! Trees that can be written down. A tree is valid where each of its names and numbers
is spelled like one and nothing is empty that may not be; a tree is fitted where each
block string has a content that can stand in a block. -/
namespace QueryDoc

/-! ## Validity -/

/-- A name that is spelled like one. -/
def Name.Valid (n : Name) : Prop := Name.isSpelling n.text.toList = true

def Variable.Valid (v : Variable) : Prop := v.name.Valid

mutual

/-- A value whose numbers, names and enum values are spelled like such. -/
def Value.Valid : Value → Prop
  | .null | .boolean _ | .string .. => True
  | .int text => Numeral.IsNumber text.toList ∧ Numeral.isFloat text.toList = false
  | .float text => Numeral.IsNumber text.toList ∧ Numeral.isFloat text.toList = true
  | .enum text => Name.Valid ⟨text⟩ ∧ text ∉ Name.reserved
  | .variable v => v.Valid
  | .list vs => Value.ValidList vs
  | .object fs => Value.ValidFields fs

def Value.ValidList : List Value → Prop
  | [] => True
  | v :: vs => v.Valid ∧ Value.ValidList vs

def Value.ValidFields : List ObjectField → Prop
  | [] => True
  | ⟨n, v⟩ :: fs => (n.Valid ∧ v.Valid) ∧ Value.ValidFields fs

end

def ObjectField.Valid (f : ObjectField) : Prop := f.name.Valid ∧ f.value.Valid

def NamedType.Valid (t : NamedType) : Prop := t.name.Valid

/-- A type in which no exclamation mark would follow another one. -/
def TypeRef.Valid : TypeRef → Prop
  | .named t => t.Valid
  | .list item => item.Valid
  | .nonNull inner => inner.Valid ∧ ∀ t, inner ≠ .nonNull t

def Argument.Valid (a : Argument) : Prop := a.name.Valid ∧ a.value.Valid

def Directive.Valid (d : Directive) : Prop := d.name.Valid ∧ ∀ a ∈ d.arguments, a.Valid

def FragmentSpread.Valid (s : FragmentSpread) : Prop :=
  s.name.Valid ∧ s.name.text ≠ "on" ∧ ∀ d ∈ s.directives, d.Valid

mutual

def Selection.Valid : Selection → Prop
  | .field f => f.Valid
  | .fragmentSpread s => s.Valid
  | .inlineFragment f => f.Valid

def Field.Valid : Field → Prop
  | ⟨aliasName, name, arguments, directives, set⟩ =>
    (∀ n ∈ aliasName, n.Valid) ∧ name.Valid ∧ (∀ a ∈ arguments, a.Valid) ∧
      (∀ d ∈ directives, d.Valid) ∧ SelectionSet.ValidOption set

def InlineFragment.Valid : InlineFragment → Prop
  | ⟨condition, directives, set⟩ =>
    (∀ t ∈ condition, t.Valid) ∧ (∀ d ∈ directives, d.Valid) ∧ set.Valid

/-- A selection set that is not empty. -/
def SelectionSet.Valid : SelectionSet → Prop
  | ⟨ss⟩ => ss ≠ [] ∧ Selection.ValidList ss

def SelectionSet.ValidOption : Option SelectionSet → Prop
  | none => True
  | some s => s.Valid

def Selection.ValidList : List Selection → Prop
  | [] => True
  | s :: ss => s.Valid ∧ Selection.ValidList ss

end

def VariableDefinition.Valid (v : VariableDefinition) : Prop :=
  v.declared.Valid ∧ v.type.Valid ∧ (∀ d ∈ v.defaultValue, d.Valid) ∧ ∀ d ∈ v.directives, d.Valid

def OperationDefinition.Valid (o : OperationDefinition) : Prop :=
  (∀ n ∈ o.name, n.Valid) ∧ (∀ v ∈ o.variableDefinitions, v.Valid) ∧
    (∀ d ∈ o.directives, d.Valid) ∧ o.selectionSet.Valid

def FragmentDefinition.Valid (f : FragmentDefinition) : Prop :=
  f.name.Valid ∧ f.name.text ≠ "on" ∧ f.typeCondition.Valid ∧ (∀ d ∈ f.directives, d.Valid) ∧
    f.selectionSet.Valid

def Definition.Valid : Definition → Prop
  | .operation o => o.Valid
  | .fragment f => f.Valid

/-- A document that is not empty. -/
def Document.Valid (d : Document) : Prop := d.definitions ≠ [] ∧ ∀ x ∈ d.definitions, x.Valid

/-- A node that can be written down. -/
def Node.Valid : Node → Prop
  | .document d => d.Valid
  | .operationDefinition o => o.Valid
  | .fragmentDefinition f => f.Valid
  | .variableDefinition v => v.Valid
  | .selectionSet s => s.Valid
  | .field f => f.Valid
  | .fragmentSpread s => s.Valid
  | .inlineFragment f => f.Valid
  | .argument a => a.Valid
  | .directive d => d.Valid
  | .variable v => v.Valid
  | .name n => n.Valid
  | .namedType t => t.Valid
  | .typeRef t => t.Valid
  | .value v => v.Valid
  | .objectField f => f.Valid

/-! ## Blocks that fit -/

mutual

/-- The value whose strings are blocks only where their content can stand in one: it ends neither
in a quote nor in a backslash. -/
def Value.fitted : Value → Value
  | .string content block =>
    .string content
      (block && content.toList.getLast? ≠ some '"' && content.toList.getLast? ≠ some '\\')
  | .list vs => .list (Value.fittedList vs)
  | .object fs => .object (Value.fittedFields fs)
  | .null => .null
  | .boolean b => .boolean b
  | .int text => .int text
  | .float text => .float text
  | .enum text => .enum text
  | .variable v => .variable v

def Value.fittedList : List Value → List Value
  | [] => []
  | v :: vs => v.fitted :: Value.fittedList vs

def Value.fittedFields : List ObjectField → List ObjectField
  | [] => []
  | ⟨n, v⟩ :: fs => ⟨n, v.fitted⟩ :: Value.fittedFields fs

end

/-- A string stays a block just where it is printed as one. -/
theorem Value.fitted_string (content : String) (block : Bool) :
    (Value.string content block).fitted =
      .string content (block && Quoted.fitsBlock content.toList) := by
  have hfits : Quoted.fitsBlock content.toList =
      (decide (content.toList.getLast? ≠ some '"') &&
        decide (content.toList.getLast? ≠ some '\\')) := by
    rw [Bool.eq_iff_iff, Quoted.fitsBlock_iff, Bool.and_eq_true, decide_eq_true_iff,
      decide_eq_true_iff]
  rw [hfits, ← Bool.and_assoc]
  rfl

def ObjectField.fitted (f : ObjectField) : ObjectField := ⟨f.name, f.value.fitted⟩

def Argument.fitted (a : Argument) : Argument := ⟨a.name, a.value.fitted⟩

def Directive.fitted (d : Directive) : Directive := ⟨d.name, d.arguments.map (·.fitted)⟩

def FragmentSpread.fitted (s : FragmentSpread) : FragmentSpread :=
  ⟨s.name, s.directives.map (·.fitted)⟩

mutual

def Selection.fitted : Selection → Selection
  | .field f => .field f.fitted
  | .fragmentSpread s => .fragmentSpread s.fitted
  | .inlineFragment f => .inlineFragment f.fitted

def Field.fitted : Field → Field
  | ⟨aliasName, name, arguments, directives, set⟩ =>
    ⟨aliasName, name, arguments.map (·.fitted), directives.map (·.fitted),
      SelectionSet.fittedOption set⟩

def InlineFragment.fitted : InlineFragment → InlineFragment
  | ⟨condition, directives, set⟩ => ⟨condition, directives.map (·.fitted), set.fitted⟩

def SelectionSet.fitted : SelectionSet → SelectionSet
  | ⟨ss⟩ => ⟨Selection.fittedList ss⟩

def SelectionSet.fittedOption : Option SelectionSet → Option SelectionSet
  | none => none
  | some s => some s.fitted

def Selection.fittedList : List Selection → List Selection
  | [] => []
  | s :: ss => s.fitted :: Selection.fittedList ss

end

def VariableDefinition.fitted (v : VariableDefinition) : VariableDefinition :=
  ⟨v.declared, v.type, v.defaultValue.map (·.fitted), v.directives.map (·.fitted)⟩

def OperationDefinition.fitted (o : OperationDefinition) : OperationDefinition :=
  ⟨o.operation, o.name, o.variableDefinitions.map (·.fitted), o.directives.map (·.fitted),
    o.selectionSet.fitted⟩

def FragmentDefinition.fitted (f : FragmentDefinition) : FragmentDefinition :=
  ⟨f.name, f.typeCondition, f.directives.map (·.fitted), f.selectionSet.fitted⟩

def Definition.fitted : Definition → Definition
  | .operation o => .operation o.fitted
  | .fragment f => .fragment f.fitted

def Document.fitted (d : Document) : Document := ⟨d.definitions.map (·.fitted)⟩

/-- The node whose strings are blocks only where their content can stand in one. -/
def Node.fitted : Node → Node
  | .document d => .document d.fitted
  | .operationDefinition o => .operationDefinition o.fitted
  | .fragmentDefinition f => .fragmentDefinition f.fitted
  | .variableDefinition v => .variableDefinition v.fitted
  | .selectionSet s => .selectionSet s.fitted
  | .field f => .field f.fitted
  | .fragmentSpread s => .fragmentSpread s.fitted
  | .inlineFragment f => .inlineFragment f.fitted
  | .argument a => .argument a.fitted
  | .directive d => .directive d.fitted
  | .variable v => .variable v
  | .name n => .name n
  | .namedType t => .namedType t
  | .typeRef t => .typeRef t
  | .value v => .value v.fitted
  | .objectField f => .objectField f.fitted

end QueryDoc
