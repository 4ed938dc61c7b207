import QueryDoc.Proofs.Grammar.Phrase
import QueryDoc.Proofs.Grammar.Reads

/-! What the rules read is in the language: a rule that succeeds has read terminals
that the grammar derives, with the tree that it gives. One lemma for each rule, from
those for its parts. The three rules that read a construct inside of itself do so on
less input, so their lemmas are by induction on the length of the input. -/
namespace QueryDoc.Rule
open Phrase

variable {α : Type}

/-- What a rule reads is a construct of the grammar. -/
def Sound (r : Rule α) (p : Phrase α) : Prop :=
  ∀ ⦃input : List Token⦄ ⦃a : α⦄ ⦃rest : List Token⦄, Reads r input a rest →
    ∃ ts, input = ts ++ rest ∧ p ts a

theorem Sound.length_le {r : Rule α} {p : Phrase α} (hs : Sound r p) {input rest : List Token}
    {a : α} (h : Reads r input a rest) : rest.length ≤ input.length := by
  obtain ⟨ts, rfl, -⟩ := hs h
  simp

/-! ## Repeated and optional parts -/

theorem sound_optional {r : Rule α} {p : Phrase α} (hr : Sound r p) :
    Sound (optional r) (Opt p) := by
  intro input o rest h
  rcases reads_optional.mp h with ⟨a, rfl, ha⟩ | ⟨-, rfl, rfl⟩
  · obtain ⟨ts, rfl, hts⟩ := hr ha
    exact ⟨ts, rfl, .some hts⟩
  · exact ⟨[], rfl, .none⟩

theorem sound_many {r : Rule α} {p : Phrase α} (hr : Sound r p) :
    Sound (many r) (Many p) := by
  intro input
  induction hn : input.length using Nat.strongRecOn generalizing input with
  | _ n ih =>
    intro as rest h
    rcases h.many_cases with ⟨-, rfl, rfl⟩ | ⟨a, mid, ha, hs⟩
    · exact ⟨[], rfl, .nil⟩
    · obtain ⟨ts, rfl, hts⟩ := hr ha
      rcases hs with ⟨hlt, bs, rfl, hb⟩ | ⟨rfl, rfl⟩
      · obtain ⟨us, rfl, hus⟩ := ih mid.length (hn ▸ hlt) rfl hb
        exact ⟨ts ++ us, (List.append_assoc ..).symm, .cons hts hus⟩
      · exact ⟨ts ++ [], by simp, .cons hts .nil⟩

theorem sound_many1 {r : Rule α} {p : Phrase α} (hr : Sound r p) :
    Sound (many1 r) (fun ts as => Many p ts as ∧ as ≠ []) := by
  intro input as rest h
  obtain ⟨a, mid, bs, ha, hb, rfl⟩ := reads_many1.mp h
  obtain ⟨ts, rfl, hts⟩ := hr ha
  obtain ⟨us, rfl, hus⟩ := sound_many hr hb
  exact ⟨ts ++ us, (List.append_assoc ..).symm, .cons hts hus, by simp⟩

theorem sound_within {r : Rule α} {p : Phrase α} {bound : List Token} {kind : Kind}
    (hr : ∀ {input a rest}, input.length < bound.length → Reads r input a rest →
      ∃ ts, input = ts ++ rest ∧ p ts a) :
    Sound (within bound kind fun rest _ => r rest) p := by
  intro input a rest h
  obtain ⟨hlt, h⟩ := reads_within.mp h
  exact hr hlt h

/-- A rule that calls itself on shorter inputs only is sound, if its body is around any sound
rule. -/
theorem Sound.recursive {r : Rule α} {p : Phrase α} {kind : Kind} {body : Rule α → Rule α}
    (hr : ∀ input, r input = body (within input kind fun rest _ => r rest) input)
    (hb : ∀ {s : Rule α}, Sound s p → Sound (body s) p) : Sound r p := by
  intro input
  induction hn : input.length using Nat.strongRecOn generalizing input with
  | _ n ih =>
    intro a rest h
    rw [Reads, hr] at h
    exact hb (sound_within fun hlt ha => ih _ (hn ▸ hlt) rfl ha) h

/-- One or more parts in parentheses, or nothing. -/
def group (kind : Kind) (r : Rule α) : Rule (List α) := do
  let found ← optional do
    token .parenL kind
    let found ← many1 r
    token .parenR kind
    return found
  return found.getD []

theorem sound_group {r : Rule α} {p : Phrase α} {kind : Kind} (hr : Sound r p) :
    Sound (group kind r) (Group p) := by
  intro input as rest h
  simp only [group, reads_bind, reads_optional, reads_token, reads_return] at h
  obtain ⟨o, mid, ⟨bs, rfl, -, mid', rfl, cs, mid'', hb, -, _, rfl, rfl, rfl⟩ | ⟨-, rfl, rfl⟩,
    rfl, rfl⟩ := h
  · obtain ⟨ts, rfl, hts, hne⟩ := sound_many1 hr hb
    exact ⟨_, by simp, .some hts hne⟩
  · exact ⟨[], rfl, .none⟩

/-! ## Names, values and types -/

theorem sound_name : Sound name NamePhrase := by
  intro input a rest h
  obtain ⟨t, rfl, ht⟩ := reads_terminal.mp h
  cases t <;> simp only [reduceCtorEq, Option.some.injEq] at ht
  subst ht
  exact ⟨_, rfl, .name _⟩

theorem sound_variableRef : Sound variableRef VariablePhrase := by
  intro input a rest h
  simp only [variableRef, reads_bind, reads_token, reads_return] at h
  obtain ⟨-, mid, rfl, n, mid', hn, rfl, rfl⟩ := h
  obtain ⟨ts, rfl, hts⟩ := sound_name hn
  cases hts
  exact ⟨_, rfl, .variable _⟩

/-- A number is read from a single terminal. -/
theorem reads_number {input rest : List Token} {v : Value} (h : Reads number input v rest) :
    ∃ text, input = .number text :: rest ∧
      v = if Numeral.isFloat text.toList then .float text else .int text := by
  obtain ⟨t, rfl, ht⟩ := reads_terminal.mp h
  cases t with
  | number text => exact ⟨text, rfl, (Option.some.inj ht).symm⟩
  | _ => cases ht

theorem sound_number : Sound number ValuePhrase := by
  intro input v rest h
  obtain ⟨text, rfl, rfl⟩ := reads_number h
  refine ⟨[.number text], rfl, ?_⟩
  cases hfloat : Numeral.isFloat text.toList with
  | false => exact .int hfloat
  | true => exact .float hfloat

theorem sound_null : Sound null ValuePhrase := by
  intro input v rest h
  simp only [null, reads_bind, reads_keyword, reads_return] at h
  obtain ⟨-, _, rfl, rfl, rfl⟩ := h
  exact ⟨[_], rfl, .null⟩

theorem sound_boolean : Sound boolean ValuePhrase := by
  intro input v rest h
  simp only [boolean, reads_orElse, reads_bind, reads_keyword, reads_return] at h
  rcases h with ⟨-, _, rfl, rfl, rfl⟩ | ⟨-, -, _, rfl, rfl, rfl⟩
  · exact ⟨[_], rfl, .true⟩
  · exact ⟨[_], rfl, .false⟩

theorem sound_string : Sound string ValuePhrase := by
  intro input v rest h
  obtain ⟨t, rfl, ht⟩ := reads_terminal.mp h
  cases t <;> simp only [reduceCtorEq, Option.some.injEq] at ht
  subst ht
  exact ⟨[_], rfl, .string _ _⟩

theorem sound_enum : Sound enum ValuePhrase := by
  intro input v rest h
  obtain ⟨t, rfl, ht⟩ := reads_terminal.mp h
  cases t <;> simp only [reduceCtorEq, Option.ite_none_left_eq_some, Option.some.injEq] at ht
  obtain ⟨hr, rfl⟩ := ht
  exact ⟨[_], rfl, .enum hr⟩

theorem sound_listOf {item : Rule Value} (hi : Sound item ValuePhrase) :
    Sound (listOf item) ValuePhrase := by
  intro input v rest h
  simp only [listOf, reads_bind, reads_token, reads_return] at h
  obtain ⟨-, mid, rfl, vs, _, hv, -, _, rfl, rfl, rfl⟩ := h
  obtain ⟨ts, rfl, hts⟩ := sound_many hi hv
  exact ⟨_, by simp, .list hts⟩

theorem sound_objectFieldOf {item : Rule Value} (hi : Sound item ValuePhrase) :
    Sound (objectFieldOf item) ObjectFieldPhrase := by
  intro input f rest h
  simp only [objectFieldOf, reads_bind, reads_token, reads_return] at h
  obtain ⟨n, _, hn, -, mid, rfl, v, _, hv, rfl, rfl⟩ := h
  obtain ⟨_, rfl, ⟨text⟩⟩ := sound_name hn
  obtain ⟨ts, rfl, hts⟩ := hi hv
  exact ⟨_, by simp, .field text hts⟩

theorem sound_objectOf {item : Rule Value} (hi : Sound item ValuePhrase) :
    Sound (objectOf item) ValuePhrase := by
  intro input v rest h
  simp only [objectOf, reads_bind, reads_token, reads_return] at h
  obtain ⟨-, mid, rfl, fs, _, hf, -, _, rfl, rfl, rfl⟩ := h
  obtain ⟨ts, rfl, hts⟩ := sound_many (sound_objectFieldOf hi) hf
  exact ⟨_, by simp, .object hts⟩

theorem sound_valueOf {item : Rule Value} (hi : Sound item ValuePhrase) :
    Sound (valueOf item) ValuePhrase := by
  intro input v rest h
  simp only [valueOf, reads_orElse, reads_attempt, reads_expecting, reads_bind,
    reads_return] at h
  rcases h with h | ⟨-, h | ⟨-, ⟨_, _, h, rfl, rfl⟩ | ⟨-, h | ⟨-, h | ⟨-, h | ⟨-, h | ⟨-, h⟩⟩⟩⟩⟩⟩⟩
  · exact sound_null h
  · exact sound_boolean h
  · obtain ⟨ts, rfl, hts⟩ := sound_variableRef h
    exact ⟨ts, rfl, .variable hts⟩
  · exact sound_string h
  · exact sound_number h
  · exact sound_enum h
  · exact sound_listOf hi h
  · exact sound_objectOf hi h

theorem sound_value : Sound value ValuePhrase :=
  .recursive (fun input => by rw [value]) sound_valueOf

theorem sound_objectField : Sound objectField ObjectFieldPhrase := sound_objectFieldOf sound_value

/-- An entry for one sort of values, from the rule for all of them. -/
theorem sound_sort {r : Rule Value} {kind : Kind} (hr : Sound r ValuePhrase)
    (hk : ∀ {input v rest}, Reads r input v rest → v.kind = kind) :
    Sound r (Entry.sort kind) := by
  intro input v rest h
  obtain ⟨ts, hi, hts⟩ := hr h
  exact ⟨ts, hi, hk h, hts⟩

/-- A rule that goes on only with values of one kind reads these. -/
theorem reads_kind {r : Rule Value} {g : Value → Rule Value} {kind : Kind}
    (hg : ∀ {w v mid rest}, Reads (g w) mid v rest ↔ (v = w ∧ rest = mid) ∧ w.kind = kind)
    {input rest : List Token} {v : Value} :
    Reads (attempt (r >>= g)) input v rest ↔ Reads r input v rest ∧ v.kind = kind := by
  simp only [reads_attempt, reads_bind, hg]
  constructor
  · intro hx
    obtain ⟨w, mid, hw, ⟨rfl, rfl⟩, hk⟩ := hx
    exact ⟨hw, hk⟩
  · intro hx
    obtain ⟨hv, hk⟩ := hx
    exact ⟨v, rest, hv, ⟨rfl, rfl⟩, hk⟩

theorem reads_int {input rest : List Token} {v : Value} :
    Reads int input v rest ↔ Reads number input v rest ∧ v.kind = .intValue := by
  refine reads_kind fun {w v mid rest} => ?_
  cases w <;> simp [Value.kind]

theorem reads_float {input rest : List Token} {v : Value} :
    Reads float input v rest ↔ Reads number input v rest ∧ v.kind = .floatValue := by
  refine reads_kind fun {w v mid rest} => ?_
  cases w <;> simp [Value.kind]

theorem kind_of_reads_boolean {input rest : List Token} {v : Value}
    (h : Reads boolean input v rest) : v.kind = .booleanValue := by
  simp only [boolean, reads_orElse, reads_bind, reads_keyword, reads_return] at h
  rcases h with ⟨-, _, -, rfl, -⟩ | ⟨-, -, _, -, rfl, -⟩ <;> rfl

theorem kind_of_reads_string {input rest : List Token} {v : Value}
    (h : Reads string input v rest) : v.kind = .stringValue := by
  obtain ⟨t, rfl, ht⟩ := reads_terminal.mp h
  cases t <;> simp only [reduceCtorEq, Option.some.injEq] at ht
  subst ht
  rfl

theorem kind_of_reads_enum {input rest : List Token} {v : Value}
    (h : Reads enum input v rest) : v.kind = .enumValue := by
  obtain ⟨t, rfl, ht⟩ := reads_terminal.mp h
  cases t <;> simp only [reduceCtorEq, Option.ite_none_left_eq_some, Option.some.injEq] at ht
  obtain ⟨-, rfl⟩ := ht
  rfl

theorem kind_of_reads_listOf {item : Rule Value} {input rest : List Token} {v : Value}
    (h : Reads (listOf item) input v rest) : v.kind = .listValue := by
  simp only [listOf, reads_bind, reads_return] at h
  obtain ⟨-, _, -, vs, _, -, -, _, -, rfl, -⟩ := h
  rfl

theorem kind_of_reads_objectOf {item : Rule Value} {input rest : List Token} {v : Value}
    (h : Reads (objectOf item) input v rest) : v.kind = .objectValue := by
  simp only [objectOf, reads_bind, reads_return] at h
  obtain ⟨-, _, -, fs, _, -, -, _, -, rfl, -⟩ := h
  rfl

theorem sound_namedType : Sound namedType NamedTypePhrase := by
  intro input t rest h
  simp only [namedType, reads_bind, reads_return] at h
  obtain ⟨n, mid, hn, rfl, rfl⟩ := h
  obtain ⟨_, rfl, ⟨text⟩⟩ := sound_name hn
  exact ⟨_, rfl, .named text⟩

/-- The exclamation mark after a type. -/
theorem sound_mark {core t : TypeRef} {input mid rest : List Token}
    (hc : ∃ ts, input = ts ++ mid ∧ NullableTypePhrase ts core)
    (h : Reads (do if ← takes .bang .nonNullType then return .nonNull core else return core)
      mid t rest) : ∃ ts, input = ts ++ rest ∧ TypePhrase ts t := by
  obtain ⟨ts, rfl, hts⟩ := hc
  simp only [reads_bind, reads_takes] at h
  obtain ⟨b, mid', hb, hr⟩ := h
  rcases hb with ⟨rfl, rfl⟩ | ⟨rfl, rfl, -⟩
  · simp only [if_true, reads_return] at hr
    obtain ⟨rfl, rfl⟩ := hr
    exact ⟨ts ++ [.bang], by simp, .nonNull hts⟩
  · simp only [Bool.false_eq_true, if_false, reads_return] at hr
    obtain ⟨rfl, rfl⟩ := hr
    exact ⟨ts, rfl, .nullable hts⟩

theorem sound_typeRefOf {item : Rule TypeRef} (hi : Sound item TypePhrase) :
    Sound (typeRefOf item) TypePhrase := by
  intro input t rest h
  obtain ⟨b, mid, hb, ht⟩ := reads_bind.mp h
  dsimp only at ht
  rcases reads_takes.mp hb with ⟨rfl, rfl⟩ | ⟨rfl, rfl, -⟩
  · rw [if_pos rfl, reads_bind] at ht
    obtain ⟨inner, _, hinner, ht⟩ := ht
    obtain ⟨_, _, hr, ht⟩ := reads_bind.mp ht
    obtain ⟨core, _, hc, ht⟩ := reads_bind.mp ht
    obtain ⟨ts, rfl, hts⟩ := hi hinner
    obtain ⟨rfl, rfl⟩ := reads_pure.mp hc
    obtain rfl := reads_token.mp hr
    exact sound_mark ⟨_, by simp, .list hts⟩ ht
  · rw [if_neg Bool.false_ne_true, reads_bind] at ht
    obtain ⟨n, _, hn, ht⟩ := ht
    obtain ⟨core, _, hc, ht⟩ := reads_bind.mp ht
    obtain ⟨ts, rfl, hts⟩ := sound_namedType hn
    obtain ⟨rfl, rfl⟩ := reads_pure.mp hc
    exact sound_mark ⟨ts, rfl, .named hts⟩ ht

theorem sound_typeRef : Sound typeRef TypePhrase :=
  .recursive (fun input => by rw [typeRef]) sound_typeRefOf

/-! ## Arguments and selections -/

theorem sound_argument : Sound argument ArgumentPhrase := by
  intro input a rest h
  simp only [argument, reads_bind, reads_token, reads_return] at h
  obtain ⟨n, _, hn, -, mid, rfl, v, _, hv, rfl, rfl⟩ := h
  obtain ⟨_, rfl, ⟨text⟩⟩ := sound_name hn
  obtain ⟨ts, rfl, hts⟩ := sound_value hv
  exact ⟨_, by simp, .argument text hts⟩

theorem sound_arguments : Sound arguments (Group ArgumentPhrase) := sound_group sound_argument

theorem sound_directive : Sound directive DirectivePhrase := by
  intro input d rest h
  simp only [directive, reads_bind, reads_token, reads_return] at h
  obtain ⟨-, _, rfl, n, mid, hn, as, _, has, rfl, rfl⟩ := h
  obtain ⟨_, rfl, ⟨text⟩⟩ := sound_name hn
  obtain ⟨ts, rfl, hts⟩ := sound_arguments has
  exact ⟨_, by simp, .directive text hts⟩

theorem sound_directives : Sound directives (Many DirectivePhrase) := sound_many sound_directive

/-- The name after an alias, with the colon before it. -/
theorem sound_renamed :
    Sound (do token .colon .field; name)
      (fun ts n => ∃ us, ts = .colon :: us ∧ NamePhrase us n) := by
  intro input n rest h
  simp only [reads_bind, reads_token] at h
  obtain ⟨-, _, rfl, hn⟩ := h
  obtain ⟨us, rfl, hus⟩ := sound_name hn
  exact ⟨.colon :: us, rfl, us, rfl, hus⟩

theorem sound_fieldOf {members : Rule SelectionSet} (hm : Sound members SelectionSetPhrase) :
    Sound (fieldOf members) FieldPhrase := by
  intro input f rest h
  simp only [fieldOf, reads_bind] at h
  obtain ⟨first, m₁, hfirst, second, m₂, hsecond, as, m₃, has, ds, m₄, hds, set, m₅, hset, h⟩ := h
  obtain ⟨_, rfl, ⟨one⟩⟩ := sound_name hfirst
  obtain ⟨ns, rfl, hns⟩ := sound_optional sound_renamed hsecond
  obtain ⟨us, rfl, hus⟩ := sound_arguments has
  obtain ⟨vs, rfl, hvs⟩ := sound_directives hds
  obtain ⟨ws, rfl, hws⟩ := sound_optional hm hset
  cases hns with
  | none =>
    obtain ⟨rfl, rfl⟩ := reads_return.mp h
    exact ⟨_, by simp, .field (.plain one) hus hvs hws⟩
  | some hns =>
    obtain ⟨_, rfl, ⟨two⟩⟩ := hns
    obtain ⟨rfl, rfl⟩ := reads_return.mp h
    exact ⟨_, by simp, .field (.aliased one two) hus hvs hws⟩

/-- A name that is not the word `on`, after a check of that. -/
theorem name_not_on {input rest : List Token} {n : Name} {kind : Kind}
    (hm : Misses (keyword "on" kind) input) (hn : Reads name input n rest) :
    ∃ text, text ≠ "on" ∧ n = ⟨text⟩ ∧ input = .name text :: rest := by
  obtain ⟨_, rfl, ⟨text⟩⟩ := sound_name hn
  refine ⟨text, ?_, rfl, rfl⟩
  intro h
  subst h
  exact (reads_keyword (u := ()).mpr rfl).not_misses hm

theorem sound_fragmentSpread : Sound fragmentSpread FragmentSpreadPhrase := by
  intro input s rest h
  simp only [fragmentSpread, reads_bind, reads_token, reads_notFollowedBy, reads_return] at h
  obtain ⟨-, _, rfl, -, _, ⟨rfl, hon⟩, n, mid, hn, ds, _, hds, rfl, rfl⟩ := h
  obtain ⟨text, hne, rfl, rfl⟩ := name_not_on hon hn
  obtain ⟨ts, rfl, hts⟩ := sound_directives hds
  exact ⟨_, by simp, .spread hne hts⟩

theorem sound_condition {kind : Kind} :
    Sound (do keyword "on" kind; namedType) ConditionPhrase := by
  intro input t rest h
  simp only [reads_bind, reads_keyword] at h
  obtain ⟨-, _, rfl, ht⟩ := h
  obtain ⟨ts, rfl, hts⟩ := sound_namedType ht
  exact ⟨_, rfl, .on hts⟩

theorem sound_inlineFragmentOf {members : Rule SelectionSet}
    (hm : Sound members SelectionSetPhrase) :
    Sound (inlineFragmentOf members) InlineFragmentPhrase := by
  intro input f rest h
  simp only [inlineFragmentOf, reads_bind, reads_token, reads_return] at h
  obtain ⟨-, _, rfl, condition, _, hc, ds, _, hds, set, _, hset, rfl, rfl⟩ := h
  obtain ⟨ts, rfl, hts⟩ := sound_optional sound_condition hc
  obtain ⟨us, rfl, hus⟩ := sound_directives hds
  obtain ⟨vs, rfl, hvs⟩ := hm hset
  exact ⟨_, by simp, .fragment hts hus hvs⟩

theorem sound_selectionOf {members : Rule SelectionSet}
    (hm : Sound members SelectionSetPhrase) :
    Sound (selectionOf members) SelectionPhrase := by
  intro input s rest h
  simp only [selectionOf, reads_orElse, reads_attempt, reads_expecting, reads_bind,
    reads_return] at h
  rcases h with ⟨_, _, h, rfl, rfl⟩ | ⟨-, ⟨_, _, h, rfl, rfl⟩ | ⟨-, _, _, h, rfl, rfl⟩⟩
  · obtain ⟨ts, rfl, hts⟩ := sound_fragmentSpread h
    exact ⟨ts, rfl, .fragmentSpread hts⟩
  · obtain ⟨ts, rfl, hts⟩ := sound_inlineFragmentOf hm h
    exact ⟨ts, rfl, .inlineFragment hts⟩
  · obtain ⟨ts, rfl, hts⟩ := sound_fieldOf hm h
    exact ⟨ts, rfl, .field hts⟩

theorem sound_selectionSetOf {members : Rule SelectionSet}
    (hm : Sound members SelectionSetPhrase) :
    Sound (selectionSetOf members) SelectionSetPhrase := by
  intro input s rest h
  simp only [selectionSetOf, reads_bind, reads_token, reads_return] at h
  obtain ⟨-, _, rfl, ss, mid, hss, -, _, rfl, rfl, rfl⟩ := h
  obtain ⟨ts, rfl, hts, hne⟩ := sound_many1 (sound_selectionOf hm) hss
  exact ⟨_, by simp, .set hts hne⟩

theorem sound_selectionSet : Sound selectionSet SelectionSetPhrase :=
  .recursive (fun input => by rw [selectionSet]) sound_selectionSetOf

/-! ## Definitions and documents -/

theorem sound_default : Sound (do token .equals .variableDefinition; value) DefaultPhrase := by
  intro input v rest h
  simp only [reads_bind, reads_token] at h
  obtain ⟨-, _, rfl, hv⟩ := h
  obtain ⟨ts, rfl, hts⟩ := sound_value hv
  exact ⟨_, rfl, .equals hts⟩

theorem sound_variableDefinition : Sound variableDefinition VariableDefinitionPhrase := by
  intro input d rest h
  simp only [variableDefinition, reads_bind, reads_token, reads_return] at h
  obtain ⟨v, _, hv, -, _, rfl, t, _, ht, o, _, ho, ds, _, hds, rfl, rfl⟩ := h
  obtain ⟨ts, rfl, hts⟩ := sound_variableRef hv
  obtain ⟨us, rfl, hus⟩ := sound_typeRef ht
  obtain ⟨vs, rfl, hvs⟩ := sound_optional sound_default ho
  obtain ⟨ws, rfl, hws⟩ := sound_directives hds
  exact ⟨_, by simp, .definition hts hus hvs hws⟩

theorem sound_variableDefinitions :
    Sound variableDefinitions (Group VariableDefinitionPhrase) :=
  sound_group sound_variableDefinition

theorem sound_operationKind : Sound operationKind OperationKindPhrase := by
  intro input k rest h
  simp only [operationKind, reads_orElse, reads_bind, reads_keyword, reads_return] at h
  rcases h with ⟨-, _, rfl, rfl, rfl⟩ | ⟨-, ⟨-, _, rfl, rfl, rfl⟩ | ⟨-, -, _, rfl, rfl, rfl⟩⟩
  · exact ⟨[_], rfl, .keyword .query⟩
  · exact ⟨[_], rfl, .keyword .mutation⟩
  · exact ⟨[_], rfl, .keyword .subscription⟩

theorem sound_operationDefinition : Sound operationDefinition OperationDefinitionPhrase := by
  intro input o rest h
  simp only [operationDefinition, reads_bind, reads_return] at h
  obtain ⟨k, _, hk, n, _, hn, vs, _, hvs, ds, _, hds, set, _, hset, rfl, rfl⟩ := h
  obtain ⟨ks, rfl, hks⟩ := sound_operationKind hk
  obtain ⟨ns, rfl, hns⟩ := sound_optional sound_name hn
  obtain ⟨ts, rfl, hts⟩ := sound_variableDefinitions hvs
  obtain ⟨us, rfl, hus⟩ := sound_directives hds
  obtain ⟨ws, rfl, hws⟩ := sound_selectionSet hset
  exact ⟨_, by simp, .definition hks hns hts hus hws⟩

theorem sound_fragmentDefinition : Sound fragmentDefinition FragmentDefinitionPhrase := by
  intro input f rest h
  simp only [fragmentDefinition, reads_bind, reads_keyword, reads_notFollowedBy,
    reads_return] at h
  obtain ⟨-, _, rfl, -, _, ⟨rfl, hon⟩, n, _, hn, -, _, rfl, t, _, ht, ds, _, hds, set, _, hset,
    rfl, rfl⟩ := h
  obtain ⟨text, hne, rfl, hrest⟩ := name_not_on hon hn
  subst hrest
  obtain ⟨ts, rfl, hts⟩ := sound_namedType ht
  obtain ⟨us, rfl, hus⟩ := sound_directives hds
  obtain ⟨vs, rfl, hvs⟩ := sound_selectionSet hset
  exact ⟨_, by simp, .definition hne (.on hts) hus hvs⟩

theorem sound_definition : Sound definition DefinitionPhrase := by
  intro input d rest h
  simp only [definition, reads_orElse, reads_attempt, reads_expecting, reads_bind,
    reads_return] at h
  rcases h with ⟨_, _, h, rfl, rfl⟩ | ⟨-, _, _, h, rfl, rfl⟩
  · obtain ⟨ts, rfl, hts⟩ := sound_operationDefinition h
    exact ⟨ts, rfl, .operation hts⟩
  · obtain ⟨ts, rfl, hts⟩ := sound_fragmentDefinition h
    exact ⟨ts, rfl, .fragment hts⟩

theorem sound_document : Sound document DocumentPhrase := by
  intro input d rest h
  simp only [document, queryShorthand, reads_orElse, reads_attempt, reads_expecting, reads_bind,
    reads_return] at h
  rcases h with ⟨_, _, ⟨s, _, hs, rfl, rfl⟩, rfl, rfl⟩ | ⟨-, ds, _, hds, rfl, rfl⟩
  · obtain ⟨ts, rfl, hts⟩ := sound_selectionSet hs
    exact ⟨ts, rfl, .shorthand hts⟩
  · obtain ⟨ts, rfl, hts, hne⟩ := sound_many1 sound_definition hds
    exact ⟨ts, rfl, .definitions hts hne⟩

/-! ## Entries -/

theorem sound_seen {α : Type} [IsNode α] {r : Rule α} {p : Phrase α} (hr : Sound r p) :
    Sound (Entry.seen r) (asNode p) := by
  intro input n rest h
  simp only [Entry.seen, reads_bind, reads_return] at h
  obtain ⟨a, _, ha, rfl, rfl⟩ := h
  obtain ⟨ts, rfl, hts⟩ := hr ha
  exact ⟨ts, rfl, a, hts, rfl⟩

theorem sound_entry (e : Entry) : Sound e.rule e.phrase := by
  match e with
  | .document => exact sound_seen sound_document
  | .definition => exact sound_seen sound_definition
  | .operationDefinition => exact sound_seen sound_operationDefinition
  | .fragmentDefinition => exact sound_seen sound_fragmentDefinition
  | .variableDefinition => exact sound_seen sound_variableDefinition
  | .typeRef => exact sound_seen sound_typeRef
  | .namedType => exact sound_seen sound_namedType
  | .selectionSet => exact sound_seen sound_selectionSet
  | .selection => exact sound_seen (sound_selectionOf sound_selectionSet)
  | .field => exact sound_seen (sound_fieldOf sound_selectionSet)
  | .fragmentSpread => exact sound_seen sound_fragmentSpread
  | .inlineFragment => exact sound_seen (sound_inlineFragmentOf sound_selectionSet)
  | .directive => exact sound_seen sound_directive
  | .argument => exact sound_seen sound_argument
  | .name => exact sound_seen sound_name
  | .variable => exact sound_seen sound_variableRef
  | .value => exact sound_seen sound_value
  | .booleanValue => exact sound_seen (sound_sort sound_boolean kind_of_reads_boolean)
  | .intValue =>
    exact sound_seen (sound_sort (fun _ _ _ h => sound_number (reads_int.mp h).1)
      fun h => (reads_int.mp h).2)
  | .floatValue =>
    exact sound_seen (sound_sort (fun _ _ _ h => sound_number (reads_float.mp h).1)
      fun h => (reads_float.mp h).2)
  | .stringValue => exact sound_seen (sound_sort sound_string kind_of_reads_string)
  | .enumValue => exact sound_seen (sound_sort sound_enum kind_of_reads_enum)
  | .listValue => exact sound_seen (sound_sort (sound_listOf sound_value) kind_of_reads_listOf)
  | .objectValue =>
    exact sound_seen (sound_sort (sound_objectOf sound_value) kind_of_reads_objectOf)
  | .objectField => exact sound_seen sound_objectField

end QueryDoc.Rule
