import QueryDoc.Grammar.Symbol
import QueryDoc.Proofs.Grammar.Completeness

/-! Reading goes forward: each production of the grammar takes up at least one terminal where it
succeeds. -/
namespace QueryDoc
open Rule

/-! ## Rules that take up terminals -/

namespace Rule
variable {α β : Type} {r : Rule α} {p : Phrase α} {input rest : List Token}

/-- A rule that takes up at least one terminal. -/
def Productive (r : Rule α) : Prop :=
  ∀ ⦃input : List Token⦄ ⦃a : α⦄ ⦃rest : List Token⦄, Reads r input a rest →
    rest.length < input.length

theorem productive_of_sound (hs : Sound r p) (hne : ∀ a, ¬ p [] a) : Productive r := by
  intro input a rest h
  obtain ⟨ts, rfl, hts⟩ := hs h
  have hpos : 0 < ts.length := by
    refine List.length_pos_iff.mpr ?_
    rintro rfl
    exact hne a hts
  rw [List.length_append]
  omega

theorem productive_of_starts {first : Token → Bool} (hs : Sound r p) (hstarts : Starts p first) :
    Productive r := by
  refine productive_of_sound hs fun a h => ?_
  obtain ⟨t, us, heq, -⟩ := hstarts h
  cases heq

theorem productive_value {r : Rule Value} (hs : Sound r ValuePhrase) : Productive r :=
  productive_of_starts hs starts_value

theorem productive_token (t : Token) (kind : Kind) : Productive (token t kind) := by
  intro input u rest h
  obtain rfl := reads_token.mp h
  exact Nat.lt_succ_self _

theorem Productive.attempt (hr : Productive r) : Productive (attempt r) :=
  fun _ _ _ h => hr (reads_attempt.mp h)

end Rule

/-! ## Productions -/

namespace Symbol

theorem not_typePhrase_nil (t : TypeRef) : ¬ TypePhrase [] t := by
  intro h
  generalize hts : [] = ts at h
  rcases h with (⟨⟨text⟩⟩ | _) | _ <;> simp at hts

theorem not_operationDefinitionPhrase_nil (d : OperationDefinition) :
    ¬ OperationDefinitionPhrase [] d := by
  intro h
  generalize hts : [] = ts at h
  obtain ⟨⟨k⟩, -, -, -, -⟩ := h
  simp at hts

theorem not_documentPhrase_nil (d : Document) : ¬ DocumentPhrase [] d := by
  intro h
  cases h with
  | shorthand hset =>
    obtain ⟨t, us, heq, -⟩ := starts_selectionSet hset
    cases heq
  | definitions hds hne =>
    generalize hts : [] = ts at hds
    cases hds with
    | nil => exact hne rfl
    | cons hd _ =>
      obtain ⟨t, us, rfl, -⟩ := starts_definition hd
      cases hts

/-- A production takes up at least one terminal. -/
theorem productive {α : Type} (s : Symbol α) : Productive s.rule := by
  match α, s with
  | _, .document => exact productive_of_sound sound_document not_documentPhrase_nil
  | _, .definition => exact productive_of_starts sound_definition starts_definition
  | _, .operationDefinition =>
    exact productive_of_sound sound_operationDefinition not_operationDefinitionPhrase_nil
  | _, .operationKind => exact productive_of_sound sound_operationKind nofun
  | _, .fragmentDefinition => exact productive_of_sound sound_fragmentDefinition nofun
  | _, .variableDefinition =>
    exact productive_of_starts sound_variableDefinition starts_variableDefinition
  | _, .typeRef => exact productive_of_sound sound_typeRef not_typePhrase_nil
  | _, .namedType => exact productive_of_sound sound_namedType nofun
  | _, .selectionSet => exact productive_of_starts sound_selectionSet starts_selectionSet
  | _, .selection =>
    exact productive_of_starts (sound_selectionOf sound_selectionSet) starts_selection
  | _, .field => exact productive_of_starts (sound_fieldOf sound_selectionSet) starts_field
  | _, .fragmentSpread => exact productive_of_sound sound_fragmentSpread nofun
  | _, .inlineFragment =>
    exact productive_of_sound (sound_inlineFragmentOf sound_selectionSet) nofun
  | _, .directive => exact productive_of_starts sound_directive starts_directive
  | _, .argument => exact productive_of_starts sound_argument starts_argument
  | _, .name => exact productive_of_starts sound_name starts_name
  | _, .variable => exact productive_of_sound sound_variableRef nofun
  | _, .value => exact productive_value sound_value
  | _, .booleanValue => exact productive_value sound_boolean
  | _, .intValue => exact productive_value fun _ _ _ h => sound_number (reads_int.mp h).1
  | _, .floatValue => exact productive_value fun _ _ _ h => sound_number (reads_float.mp h).1
  | _, .stringValue => exact productive_value sound_string
  | _, .enumValue => exact productive_value sound_enum
  | _, .listValue => exact productive_value (sound_listOf sound_value)
  | _, .objectValue => exact productive_value (sound_objectOf sound_value)
  | _, .objectField => exact productive_of_starts sound_objectField starts_objectField

end Symbol
end QueryDoc
