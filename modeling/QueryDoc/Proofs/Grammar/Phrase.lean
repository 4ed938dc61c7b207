import QueryDoc.Grammar.Production

/-! The query language as a grammar: which terminals can stand for a construct, and
for which tree they stand. Nothing here says how to find that out. Alternatives have
no order, an optional part may be left out and a repetition may stop at any place;
that the rules, which take the first alternative that fits and never give back what
they read, accept the same language is proved elsewhere. -/
namespace QueryDoc

/-- A construct: the terminals it can be written with, and the tree for each. -/
abbrev Phrase (α : Type) := List Token → α → Prop

namespace Phrase

variable {α : Type}

/-- A part that may be left out. -/
inductive Opt (p : Phrase α) : List Token → Option α → Prop where
  | none : Opt p [] none
  | some {ts : List Token} {a : α} : p ts a → Opt p ts (some a)

/-- A part that is repeated any number of times. -/
inductive Many (p : Phrase α) : List Token → List α → Prop where
  | nil : Many p [] []
  | cons {ts us : List Token} {a : α} {as : List α} :
      p ts a → Many p us as → Many p (ts ++ us) (a :: as)

/-- Nothing, or one or more parts in parentheses. -/
inductive Group (p : Phrase α) : List Token → List α → Prop where
  | none : Group p [] []
  | some {ts : List Token} {as : List α} :
      Many p ts as → as ≠ [] → Group p (.parenL :: ts ++ [.parenR]) as

/-- A part, seen as a node. -/
def asNode [IsNode α] (p : Phrase α) : Phrase Node := fun ts n => ∃ a, p ts a ∧ IsNode.toNode a = n

end Phrase

open Phrase

/-! ## Names, values and types -/

inductive NamePhrase : Phrase Name where
  | name (text : String) : NamePhrase [.name text] ⟨text⟩

inductive VariablePhrase : Phrase Variable where
  | variable (text : String) : VariablePhrase [.dollar, .name text] ⟨⟨text⟩⟩

mutual

inductive ValuePhrase : List Token → Value → Prop where
  | null : ValuePhrase [.name "null"] .null
  | true : ValuePhrase [.name "true"] (.boolean true)
  | false : ValuePhrase [.name "false"] (.boolean false)
  | variable {ts : List Token} {v : Variable} :
      VariablePhrase ts v → ValuePhrase ts (.variable v)
  | string (content : String) (block : Bool) :
      ValuePhrase [.string content block] (.string content block)
  | int {text : String} :
      Numeral.isFloat text.toList = false → ValuePhrase [.number text] (.int text)
  | float {text : String} :
      Numeral.isFloat text.toList = true → ValuePhrase [.number text] (.float text)
  | enum {text : String} : text ∉ Name.reserved → ValuePhrase [.name text] (.enum text)
  | list {ts : List Token} {vs : List Value} :
      Many ValuePhrase ts vs → ValuePhrase (.bracketL :: ts ++ [.bracketR]) (.list vs)
  | object {ts : List Token} {fs : List ObjectField} :
      Many ObjectFieldPhrase ts fs → ValuePhrase (.braceL :: ts ++ [.braceR]) (.object fs)

inductive ObjectFieldPhrase : List Token → ObjectField → Prop where
  | field (text : String) {ts : List Token} {v : Value} :
      ValuePhrase ts v → ObjectFieldPhrase (.name text :: .colon :: ts) ⟨⟨text⟩, v⟩

end

inductive NamedTypePhrase : Phrase NamedType where
  | named (text : String) : NamedTypePhrase [.name text] ⟨⟨text⟩⟩

mutual

/-- A type with or without an exclamation mark. -/
inductive TypePhrase : List Token → TypeRef → Prop where
  | nullable {ts : List Token} {t : TypeRef} : NullableTypePhrase ts t → TypePhrase ts t
  | nonNull {ts : List Token} {t : TypeRef} :
      NullableTypePhrase ts t → TypePhrase (ts ++ [.bang]) (.nonNull t)

/-- A named type or a list type. -/
inductive NullableTypePhrase : List Token → TypeRef → Prop where
  | named {ts : List Token} {t : NamedType} :
      NamedTypePhrase ts t → NullableTypePhrase ts (.named t)
  | list {ts : List Token} {t : TypeRef} :
      TypePhrase ts t → NullableTypePhrase (.bracketL :: ts ++ [.bracketR]) (.list t)

end

/-! ## Arguments and selections -/

inductive ArgumentPhrase : Phrase Argument where
  | argument (text : String) {ts : List Token} {v : Value} :
      ValuePhrase ts v → ArgumentPhrase (.name text :: .colon :: ts) ⟨⟨text⟩, v⟩

inductive DirectivePhrase : Phrase Directive where
  | directive (text : String) {ts : List Token} {as : List Argument} :
      Group ArgumentPhrase ts as → DirectivePhrase (.atSign :: .name text :: ts) ⟨⟨text⟩, as⟩

/-- The alias and the name of a field. -/
inductive FieldNamePhrase : Phrase (Option Name × Name) where
  | plain (text : String) : FieldNamePhrase [.name text] (none, ⟨text⟩)
  | aliased (other text : String) :
      FieldNamePhrase [.name other, .colon, .name text] (some ⟨other⟩, ⟨text⟩)

inductive FragmentSpreadPhrase : Phrase FragmentSpread where
  | spread {text : String} {ts : List Token} {ds : List Directive} :
      text ≠ "on" → Many DirectivePhrase ts ds →
      FragmentSpreadPhrase (.spread :: .name text :: ts) ⟨⟨text⟩, ds⟩

/-- The type condition of a fragment. -/
inductive ConditionPhrase : Phrase NamedType where
  | on {ts : List Token} {t : NamedType} :
      NamedTypePhrase ts t → ConditionPhrase (.name "on" :: ts) t

mutual

inductive SelectionPhrase : List Token → Selection → Prop where
  | field {ts : List Token} {f : Field} : FieldPhrase ts f → SelectionPhrase ts (.field f)
  | fragmentSpread {ts : List Token} {s : FragmentSpread} :
      FragmentSpreadPhrase ts s → SelectionPhrase ts (.fragmentSpread s)
  | inlineFragment {ts : List Token} {f : InlineFragment} :
      InlineFragmentPhrase ts f → SelectionPhrase ts (.inlineFragment f)

inductive FieldPhrase : List Token → Field → Prop where
  | field {ns ts us vs : List Token} {aliasName : Option Name} {name : Name}
      {as : List Argument} {ds : List Directive} {set : Option SelectionSet} :
      FieldNamePhrase ns (aliasName, name) → Group ArgumentPhrase ts as →
      Many DirectivePhrase us ds → Opt SelectionSetPhrase vs set →
      FieldPhrase (ns ++ (ts ++ (us ++ vs))) ⟨aliasName, name, as, ds, set⟩

inductive InlineFragmentPhrase : List Token → InlineFragment → Prop where
  | fragment {ts us vs : List Token} {condition : Option NamedType} {ds : List Directive}
      {set : SelectionSet} :
      Opt ConditionPhrase ts condition → Many DirectivePhrase us ds →
      SelectionSetPhrase vs set →
      InlineFragmentPhrase (.spread :: (ts ++ (us ++ vs))) ⟨condition, ds, set⟩

inductive SelectionSetPhrase : List Token → SelectionSet → Prop where
  | set {ts : List Token} {ss : List Selection} :
      Many SelectionPhrase ts ss → ss ≠ [] →
      SelectionSetPhrase (.braceL :: ts ++ [.braceR]) ⟨ss⟩

end

/-! ## Definitions and documents -/

/-- The default value of a variable. -/
inductive DefaultPhrase : Phrase Value where
  | equals {ts : List Token} {v : Value} :
      ValuePhrase ts v → DefaultPhrase (.equals :: ts) v

inductive VariableDefinitionPhrase : Phrase VariableDefinition where
  | definition {ts us vs ws : List Token} {v : Variable} {t : TypeRef} {o : Option Value}
      {ds : List Directive} :
      VariablePhrase ts v → TypePhrase us t → Opt DefaultPhrase vs o →
      Many DirectivePhrase ws ds →
      VariableDefinitionPhrase (ts ++ .colon :: (us ++ (vs ++ ws))) ⟨v, t, o, ds⟩

inductive OperationKindPhrase : Phrase OperationKind where
  | keyword (k : OperationKind) : OperationKindPhrase [.name k.keyword] k

inductive OperationDefinitionPhrase : Phrase OperationDefinition where
  | definition {ks ns ts us vs : List Token} {k : OperationKind} {name : Option Name}
      {declared : List VariableDefinition} {ds : List Directive} {set : SelectionSet} :
      OperationKindPhrase ks k → Opt NamePhrase ns name →
      Group VariableDefinitionPhrase ts declared → Many DirectivePhrase us ds →
      SelectionSetPhrase vs set →
      OperationDefinitionPhrase (ks ++ (ns ++ (ts ++ (us ++ vs)))) ⟨k, name, declared, ds, set⟩

inductive FragmentDefinitionPhrase : Phrase FragmentDefinition where
  | definition {text : String} {ts us vs : List Token} {condition : NamedType}
      {ds : List Directive} {set : SelectionSet} :
      text ≠ "on" → ConditionPhrase ts condition → Many DirectivePhrase us ds →
      SelectionSetPhrase vs set →
      FragmentDefinitionPhrase (.name "fragment" :: .name text :: (ts ++ (us ++ vs)))
        ⟨⟨text⟩, condition, ds, set⟩

inductive DefinitionPhrase : Phrase Definition where
  | operation {ts : List Token} {o : OperationDefinition} :
      OperationDefinitionPhrase ts o → DefinitionPhrase ts (.operation o)
  | fragment {ts : List Token} {f : FragmentDefinition} :
      FragmentDefinitionPhrase ts f → DefinitionPhrase ts (.fragment f)

/-- A document is a selection set and nothing else, or definitions of which none is
a selection set alone. -/
inductive DocumentPhrase : Phrase Document where
  | shorthand {ts : List Token} {s : SelectionSet} :
      SelectionSetPhrase ts s → DocumentPhrase ts ⟨[.operation (.ofSelectionSet s)]⟩
  | definitions {ts : List Token} {ds : List Definition} :
      Many DefinitionPhrase ts ds → ds ≠ [] → DocumentPhrase ts ⟨ds⟩

namespace Entry

/-- The values that an entry for one sort of values admits. -/
def sort (kind : Kind) : Phrase Value := fun ts v => v.kind = kind ∧ ValuePhrase ts v

/-- The construct that an entry stands for. -/
def phrase : Entry → Phrase Node
  | .document => asNode DocumentPhrase
  | .definition => asNode DefinitionPhrase
  | .operationDefinition => asNode OperationDefinitionPhrase
  | .fragmentDefinition => asNode FragmentDefinitionPhrase
  | .variableDefinition => asNode VariableDefinitionPhrase
  | .typeRef => asNode TypePhrase
  | .namedType => asNode NamedTypePhrase
  | .selectionSet => asNode SelectionSetPhrase
  | .selection => asNode SelectionPhrase
  | .field => asNode FieldPhrase
  | .fragmentSpread => asNode FragmentSpreadPhrase
  | .inlineFragment => asNode InlineFragmentPhrase
  | .directive => asNode DirectivePhrase
  | .argument => asNode ArgumentPhrase
  | .name => asNode NamePhrase
  | .variable => asNode VariablePhrase
  | .value => asNode ValuePhrase
  | .booleanValue => asNode (sort .booleanValue)
  | .intValue => asNode (sort .intValue)
  | .floatValue => asNode (sort .floatValue)
  | .stringValue => asNode (sort .stringValue)
  | .enumValue => asNode (sort .enumValue)
  | .listValue => asNode (sort .listValue)
  | .objectValue => asNode (sort .objectValue)
  | .objectField => asNode ObjectFieldPhrase

end Entry
end QueryDoc
