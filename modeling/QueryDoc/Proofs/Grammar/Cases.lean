import QueryDoc.Proofs.Grammar.Acceptance

/-! Constructs that are one of several sorts. A text can be read as a value, a selection, a
definition or a type of some sort just where it can be read as that sort by itself, and as the
same: no other sort that is tried before it takes the text or a beginning of it away. -/
namespace QueryDoc
open IsNode Phrase

namespace Entry

/-- The construct of which an entry is for one sort alone. -/
def caseOf? : Entry → Option Entry
  | .variable | .booleanValue | .intValue | .floatValue | .stringValue | .enumValue | .listValue
  | .objectValue => some .value
  | .field | .fragmentSpread | .inlineFragment => some .selection
  | .operationDefinition | .fragmentDefinition => some .definition
  | .namedType => some .typeRef
  | .document | .definition | .variableDefinition | .typeRef | .selectionSet | .selection
  | .directive | .argument | .name | .value | .objectField => none

end Entry

section Cases
variable {α β : Type} [IsNode α] [IsNode β] {p : Phrase α} {q : Phrase β} {kind : Kind}
  {ts : List Token} {n : Node}

/-- Nodes of one sort are those of its kind among all nodes that are read as some sort, if what
has that kind can only have been read as that sort. -/
theorem asNode_iff_case (sum : α → β) (hnode : ∀ a, toNode (sum a) = toNode a)
    (hsum : ∀ a, p ts a → q ts (sum a) ∧ (toNode a).kind = kind)
    (hcase : ∀ b, q ts b → (toNode b).kind = kind → ∃ a, sum a = b ∧ p ts a) :
    asNode p ts n ↔ asNode q ts n ∧ n.kind = kind := by
  constructor
  · intro hx
    obtain ⟨a, ha, rfl⟩ := hx
    obtain ⟨hb, hk⟩ := hsum a ha
    exact ⟨⟨sum a, hb, hnode a⟩, hk⟩
  · intro hx
    obtain ⟨⟨b, hb, rfl⟩, hk⟩ := hx
    obtain ⟨a, rfl, ha⟩ := hcase b hb hk
    exact ⟨a, ha, (hnode a).symm⟩

/-! ## Values and types -/

theorem kind_toNode_value (v : Value) : (toNode v).kind = v.kind := by
  cases v <;> rfl

theorem asNode_sort_iff :
    asNode (Entry.sort kind) ts n ↔ asNode ValuePhrase ts n ∧ n.kind = kind := by
  refine asNode_iff_case id (fun _ => rfl) (fun v hv => ?_) fun v hv hk => ?_
  · rw [kind_toNode_value]
    exact ⟨hv.2, hv.1⟩
  · rw [kind_toNode_value] at hk
    exact ⟨v, rfl, hk, hv⟩

theorem asNode_variable_iff :
    asNode VariablePhrase ts n ↔ asNode ValuePhrase ts n ∧ n.kind = .variable := by
  refine asNode_iff_case Value.variable (fun _ => rfl) (fun _ h => ⟨.variable h, rfl⟩) ?_
  intro v hv hk
  cases hv <;> cases hk
  exact ⟨_, rfl, ‹_›⟩

theorem asNode_namedType_iff :
    asNode NamedTypePhrase ts n ↔ asNode TypePhrase ts n ∧ n.kind = .namedType := by
  refine asNode_iff_case TypeRef.named (fun _ => rfl)
    (fun _ h => ⟨.nullable (.named h), rfl⟩) ?_
  intro t ht hk
  rcases ht with ht | ht <;> cases ht <;> cases hk
  exact ⟨_, rfl, ‹_›⟩

/-! ## Selections and definitions -/

theorem asNode_field_iff :
    asNode FieldPhrase ts n ↔ asNode SelectionPhrase ts n ∧ n.kind = .field := by
  refine asNode_iff_case Selection.field (fun _ => rfl) (fun _ h => ⟨.field h, rfl⟩) ?_
  intro s hs hk
  cases hs <;> cases hk
  exact ⟨_, rfl, ‹_›⟩

theorem asNode_fragmentSpread_iff :
    asNode FragmentSpreadPhrase ts n ↔
      asNode SelectionPhrase ts n ∧ n.kind = .fragmentSpread := by
  refine asNode_iff_case Selection.fragmentSpread (fun _ => rfl)
    (fun _ h => ⟨.fragmentSpread h, rfl⟩) ?_
  intro s hs hk
  cases hs <;> cases hk
  exact ⟨_, rfl, ‹_›⟩

theorem asNode_inlineFragment_iff :
    asNode InlineFragmentPhrase ts n ↔
      asNode SelectionPhrase ts n ∧ n.kind = .inlineFragment := by
  refine asNode_iff_case Selection.inlineFragment (fun _ => rfl)
    (fun _ h => ⟨.inlineFragment h, rfl⟩) ?_
  intro s hs hk
  cases hs <;> cases hk
  exact ⟨_, rfl, ‹_›⟩

theorem asNode_operationDefinition_iff :
    asNode OperationDefinitionPhrase ts n ↔
      asNode DefinitionPhrase ts n ∧ n.kind = .operationDefinition := by
  refine asNode_iff_case Definition.operation (fun _ => rfl) (fun _ h => ⟨.operation h, rfl⟩) ?_
  intro d hd hk
  cases hd <;> cases hk
  exact ⟨_, rfl, ‹_›⟩

theorem asNode_fragmentDefinition_iff :
    asNode FragmentDefinitionPhrase ts n ↔
      asNode DefinitionPhrase ts n ∧ n.kind = .fragmentDefinition := by
  refine asNode_iff_case Definition.fragment (fun _ => rfl) (fun _ h => ⟨.fragment h, rfl⟩) ?_
  intro d hd hk
  cases hd <;> cases hk
  exact ⟨_, rfl, ‹_›⟩

end Cases

/-! ## Entries -/

theorem Entry.phrase_iff_case {e sum : Entry} (h : e.caseOf? = some sum) {ts : List Token}
    {n : Node} : e.phrase ts n ↔ sum.phrase ts n ∧ n.kind = e.kind := by
  match e, h with
  | .variable, rfl => exact asNode_variable_iff
  | .booleanValue, rfl | .intValue, rfl | .floatValue, rfl | .stringValue, rfl
  | .enumValue, rfl | .listValue, rfl | .objectValue, rfl => exact asNode_sort_iff
  | .field, rfl => exact asNode_field_iff
  | .fragmentSpread, rfl => exact asNode_fragmentSpread_iff
  | .inlineFragment, rfl => exact asNode_inlineFragment_iff
  | .operationDefinition, rfl => exact asNode_operationDefinition_iff
  | .fragmentDefinition, rfl => exact asNode_fragmentDefinition_iff
  | .namedType, rfl => exact asNode_namedType_iff

/-- A text is read as one sort of a construct just where it is read as that construct and what
it stands for is of that sort; both readings give the same node. -/
theorem Entry.parse_iff_case {e sum : Entry} (h : e.caseOf? = some sum) (source : String)
    (n : Node) : e.parse source = .ok n ↔ sum.parse source = .ok n ∧ n.kind = e.kind := by
  rw [parse_iff_phrase, parse_iff_phrase, phrase_iff_case h]

/-- Names that start like a literal and a spread that starts like an inline fragment: what is
tried first reads only a beginning of them. -/
theorem Entry.parse_iff_case_prefix :
    (Entry.enumValue.caseOf? = some .value ∧
      Entry.enumValue.parse "truthy" = .ok (.value (.enum "truthy")) ∧
      ∀ n, Entry.booleanValue.parse "truthy" ≠ .ok n) ∧
    (Entry.fragmentSpread.caseOf? = some .selection ∧
      Entry.fragmentSpread.parse "...onion" = .ok (.fragmentSpread ⟨⟨"onion"⟩, []⟩)) := by
  have hvalue : Entry.value.parse "truthy" = .ok (.value (.enum "truthy")) :=
    ok_of_toOption (by decide +kernel)
  have hselection : Entry.selection.parse "...onion" = .ok (.fragmentSpread ⟨⟨"onion"⟩, []⟩) :=
    ok_of_toOption (by decide +kernel)
  refine ⟨⟨rfl, (parse_iff_case rfl _ _).mpr ⟨hvalue, rfl⟩, fun n hn => ?_⟩, rfl,
    (parse_iff_case rfl _ _).mpr ⟨hselection, rfl⟩⟩
  obtain ⟨hn, hkind⟩ := (parse_iff_case rfl _ _).mp hn
  rw [hvalue] at hn
  cases hn
  cases hkind

end QueryDoc
