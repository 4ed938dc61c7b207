import QueryDoc.Proofs.Grammar.Phrase

/-! No construct contains the mark of a place where no terminal starts: whatever can
be read has been written out of terminals. By recursion on the tree of the construct. -/
namespace QueryDoc
open Phrase

/-- A phrase without that mark. -/
def Phrase.Proper {α : Type} (p : Phrase α) : Prop := ∀ ⦃ts a⦄, p ts a → Token.invalid ∉ ts

namespace Phrase.Proper

variable {α : Type} {p : Phrase α}

theorem many (hp : Proper p) : Proper (Many p) := by
  intro ts as h
  induction h with
  | nil => simp
  | cons ha _ ih => simp [hp ha, ih]

theorem opt (hp : Proper p) : Proper (Opt p) := by
  intro ts o h
  rcases h with _ | ha
  · simp
  · exact hp ha

theorem group (hp : Proper p) : Proper (Group p) := by
  intro ts as h
  rcases h with _ | ⟨has, -⟩
  · simp
  · simp [hp.many has]

end Phrase.Proper

theorem proper_variable : Proper VariablePhrase := by
  intro ts v h
  obtain ⟨text⟩ := h
  simp

mutual

theorem proper_value : ∀ {v : Value} {ts : List Token}, ValuePhrase ts v → Token.invalid ∉ ts
  | .list vs, _, .list h => by simp [proper_values h]
  | .object fs, _, .object h => by simp [proper_objectFields h]
  | .variable v, _, .variable h => proper_variable h
  | .null, _, .null => by simp
  | .boolean _, _, .true => by simp
  | .boolean _, _, .false => by simp
  | .string .., _, .string .. => by simp
  | .int _, _, .int _ => by simp
  | .float _, _, .float _ => by simp
  | .enum _, _, .enum _ => by simp

theorem proper_values :
    ∀ {vs : List Value} {ts : List Token}, Many ValuePhrase ts vs → Token.invalid ∉ ts
  | [], _, .nil => by simp
  | v :: vs, _, .cons h hs => by simp [proper_value h, proper_values hs]

theorem proper_objectFields :
    ∀ {fs : List ObjectField} {ts : List Token}, Many ObjectFieldPhrase ts fs →
      Token.invalid ∉ ts
  | [], _, .nil => by simp
  | ⟨n, v⟩ :: fs, _, .cons (.field _ h) hs => by
    simp [proper_value h, proper_objectFields hs]

end

theorem proper_objectField : Proper ObjectFieldPhrase := by
  intro ts f h
  obtain ⟨text, hv⟩ := h
  simp [proper_value hv]

theorem proper_namedType : Proper NamedTypePhrase := by
  intro ts t h
  obtain ⟨text⟩ := h
  simp

mutual

theorem proper_typeRef : ∀ {t : TypeRef} {ts : List Token}, TypePhrase ts t → Token.invalid ∉ ts
  | .named _, _, .nullable h => proper_nullable h
  | .list _, _, .nullable h => proper_nullable h
  | .nonNull t, _, .nonNull h => by simp [proper_nullable h]

theorem proper_nullable :
    ∀ {t : TypeRef} {ts : List Token}, NullableTypePhrase ts t → Token.invalid ∉ ts
  | .named _, _, .named h => proper_namedType h
  | .list t, _, .list h => by simp [proper_typeRef h]

end

/-! ## Arguments and selections -/

theorem proper_argument : Proper ArgumentPhrase := by
  intro ts a h
  obtain ⟨text, hv⟩ := h
  simp [proper_value hv]

theorem proper_directive : Proper DirectivePhrase := by
  intro ts d h
  obtain ⟨text, has⟩ := h
  simp [proper_argument.group has]

theorem proper_fieldName : Proper FieldNamePhrase := by
  rintro ts n (_ | _) <;> simp

theorem proper_fragmentSpread : Proper FragmentSpreadPhrase := by
  intro ts s h
  obtain ⟨-, hds⟩ := h
  simp [proper_directive.many hds]

theorem proper_condition : Proper ConditionPhrase := by
  intro ts t h
  obtain ⟨ht⟩ := h
  simp [proper_namedType ht]

mutual

theorem proper_selection :
    ∀ {s : Selection} {ts : List Token}, SelectionPhrase ts s → Token.invalid ∉ ts
  | .field _, _, .field h => proper_field h
  | .fragmentSpread _, _, .fragmentSpread h => proper_fragmentSpread h
  | .inlineFragment _, _, .inlineFragment h => proper_inlineFragment h

theorem proper_field : ∀ {f : Field} {ts : List Token}, FieldPhrase ts f → Token.invalid ∉ ts
  | ⟨_, _, _, _, none⟩, _, .field hn has hds .none => by
    simp [proper_fieldName hn, proper_argument.group has, proper_directive.many hds]
  | ⟨_, _, _, _, some _⟩, _, .field hn has hds (.some hset) => by
    simp [proper_fieldName hn, proper_argument.group has, proper_directive.many hds,
      proper_selectionSet hset]

theorem proper_inlineFragment :
    ∀ {f : InlineFragment} {ts : List Token}, InlineFragmentPhrase ts f → Token.invalid ∉ ts
  | ⟨_, _, _⟩, _, .fragment hc hds hset => by
    simp [proper_condition.opt hc, proper_directive.many hds, proper_selectionSet hset]

theorem proper_selectionSet :
    ∀ {s : SelectionSet} {ts : List Token}, SelectionSetPhrase ts s → Token.invalid ∉ ts
  | ⟨_⟩, _, .set h _ => by simp [proper_selections h]

theorem proper_selections :
    ∀ {ss : List Selection} {ts : List Token}, Many SelectionPhrase ts ss → Token.invalid ∉ ts
  | [], _, .nil => by simp
  | _ :: _, _, .cons h hs => by simp [proper_selection h, proper_selections hs]

end

/-! ## Definitions and documents -/

theorem proper_default : Proper DefaultPhrase := by
  intro ts v h
  obtain ⟨hv⟩ := h
  simp [proper_value hv]

theorem proper_variableDefinition : Proper VariableDefinitionPhrase := by
  intro ts d h
  obtain ⟨hv, ht, ho, hds⟩ := h
  simp [proper_variable hv, proper_typeRef ht, proper_default.opt ho, proper_directive.many hds]

theorem proper_operationKind : Proper OperationKindPhrase := by
  intro ts k h
  obtain ⟨⟩ := h
  simp

theorem proper_name : Proper NamePhrase := by
  intro ts n h
  obtain ⟨text⟩ := h
  simp

theorem proper_operationDefinition : Proper OperationDefinitionPhrase := by
  intro ts o h
  obtain ⟨hk, hn, hvs, hds, hset⟩ := h
  simp [proper_operationKind hk, proper_name.opt hn, proper_variableDefinition.group hvs,
    proper_directive.many hds, proper_selectionSet hset]

theorem proper_fragmentDefinition : Proper FragmentDefinitionPhrase := by
  intro ts f h
  obtain ⟨-, hc, hds, hset⟩ := h
  simp [proper_condition hc, proper_directive.many hds, proper_selectionSet hset]

theorem proper_definition : Proper DefinitionPhrase := by
  intro ts d h
  rcases h with ho | hf
  · exact proper_operationDefinition ho
  · exact proper_fragmentDefinition hf

theorem proper_document : Proper DocumentPhrase := by
  intro ts d h
  rcases h with hs | ⟨hds, -⟩
  · exact proper_selectionSet hs
  · exact proper_definition.many hds

/-! ## Entries -/

theorem proper_asNode {α : Type} [IsNode α] {p : Phrase α} (hp : Proper p) :
    Proper (asNode p) := by
  intro ts n h
  obtain ⟨a, ha, -⟩ := h
  exact hp ha

theorem proper_sort (kind : Kind) : Proper (Entry.sort kind) := by
  intro ts v h
  obtain ⟨-, hv⟩ := h
  exact proper_value hv

theorem proper_entry (e : Entry) : Proper e.phrase := by
  match e with
  | .document => exact proper_asNode proper_document
  | .definition => exact proper_asNode proper_definition
  | .operationDefinition => exact proper_asNode proper_operationDefinition
  | .fragmentDefinition => exact proper_asNode proper_fragmentDefinition
  | .variableDefinition => exact proper_asNode proper_variableDefinition
  | .typeRef => exact proper_asNode fun _ _ => proper_typeRef
  | .namedType => exact proper_asNode proper_namedType
  | .selectionSet => exact proper_asNode fun _ _ => proper_selectionSet
  | .selection => exact proper_asNode fun _ _ => proper_selection
  | .field => exact proper_asNode fun _ _ => proper_field
  | .fragmentSpread => exact proper_asNode proper_fragmentSpread
  | .inlineFragment => exact proper_asNode fun _ _ => proper_inlineFragment
  | .directive => exact proper_asNode proper_directive
  | .argument => exact proper_asNode proper_argument
  | .name => exact proper_asNode proper_name
  | .variable => exact proper_asNode proper_variable
  | .value => exact proper_asNode fun _ _ => proper_value
  | .booleanValue | .intValue | .floatValue | .stringValue | .enumValue | .listValue
  | .objectValue => exact proper_asNode (proper_sort _)
  | .objectField => exact proper_asNode proper_objectField

end QueryDoc
