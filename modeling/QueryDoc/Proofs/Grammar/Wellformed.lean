import QueryDoc.Proofs.Grammar.Acceptance
import QueryDoc.Proofs.Tree.Inside

/-! What is read is valid: a tree that the grammar gives for terminals that can be
spelled can be written down, so every node in it follows the data model. By recursion on
the tree, as with every fact about all constructs. -/
namespace QueryDoc
open Phrase Rule

/-- A terminal with a text that can be spelled. -/
def Token.Valid : Token → Prop
  | .name text => Name.Valid ⟨text⟩
  | .number text => Numeral.IsNumber text.toList
  | _ => True

theorem valid_of_spells {word : List Char} {t : Token} (h : Spells word t) : t.Valid := by
  cases h with
  | name h =>
    show Name.isSpelling (String.ofList word).toList = true
    rwa [String.toList_ofList]
  | number h =>
    show Numeral.IsNumber (String.ofList word).toList
    rwa [String.toList_ofList]
  | _ => trivial

theorem valid_of_written {start : List Char} {ts : List Token} (h : Written start ts) :
    ∀ t ∈ ts, t.Valid := by
  intro t ht
  obtain ⟨word, hw⟩ := Lexer.spelled_of_written h t ht
  exact valid_of_spells hw

/-- A phrase whose trees are valid if its terminals are. -/
def Phrase.Keeps {α : Type} (p : Phrase α) (valid : α → Prop) : Prop :=
  ∀ ⦃ts a⦄, p ts a → (∀ t ∈ ts, t.Valid) → valid a

namespace Phrase.Keeps

variable {α : Type} {p : Phrase α} {valid : α → Prop}

theorem many (hp : Keeps p valid) : Keeps (Many p) (∀ a ∈ ·, valid a) := by
  intro ts as h ht
  induction h with
  | nil => simp
  | cons ha _ ih =>
    rw [List.forall_mem_append] at ht
    exact List.forall_mem_cons.mpr ⟨hp ha ht.1, ih ht.2⟩

theorem opt (hp : Keeps p valid) : Keeps (Opt p) (∀ a ∈ ·, valid a) := by
  intro ts o h ht
  rcases h with _ | ha
  · intro a h
    obtain ⟨⟩ := h
  · intro b hb
    cases hb
    exact hp ha ht

theorem group (hp : Keeps p valid) : Keeps (Group p) (∀ a ∈ ·, valid a) := by
  intro ts as h ht
  rcases h with _ | ⟨has, -⟩
  · simp
  · simp only [List.cons_append, List.forall_mem_cons, List.forall_mem_append] at ht
    exact hp.many has ht.2.1

end Phrase.Keeps

/-! ## Names, values and types -/

theorem keeps_name : Keeps NamePhrase Name.Valid := by
  intro ts n h ht
  obtain ⟨text⟩ := h
  exact ht (.name text) (by simp)

theorem keeps_variable : Keeps VariablePhrase Variable.Valid := by
  intro ts v h ht
  obtain ⟨text⟩ := h
  exact ht (.name text) (by simp)

mutual

theorem valid_value : ∀ {v : Value} {ts : List Token}, ValuePhrase ts v →
    (∀ t ∈ ts, t.Valid) → v.Valid
  | .null, _, .null, _ => trivial
  | .boolean _, _, .true, _ => trivial
  | .boolean _, _, .false, _ => trivial
  | .variable _, _, .variable h, ht => keeps_variable h ht
  | .string .., _, .string .., _ => trivial
  | .int _, _, .int h, ht => ⟨ht _ (List.mem_singleton_self _), h⟩
  | .float _, _, .float h, ht => ⟨ht _ (List.mem_singleton_self _), h⟩
  | .enum _, _, .enum h, ht => ⟨ht _ (List.mem_singleton_self _), h⟩
  | .list _, _, .list h, ht => by
    simp only [List.cons_append, List.forall_mem_cons, List.forall_mem_append] at ht
    exact valid_values h ht.2.1
  | .object _, _, .object h, ht => by
    simp only [List.cons_append, List.forall_mem_cons, List.forall_mem_append] at ht
    exact valid_objectFields h ht.2.1

theorem valid_values : ∀ {vs : List Value} {ts : List Token}, Many ValuePhrase ts vs →
    (∀ t ∈ ts, t.Valid) → Value.ValidList vs
  | [], _, .nil, _ => trivial
  | _ :: _, _, .cons h hs, ht => by
    rw [List.forall_mem_append] at ht
    exact ⟨valid_value h ht.1, valid_values hs ht.2⟩

theorem valid_objectFields : ∀ {fs : List ObjectField} {ts : List Token},
    Many ObjectFieldPhrase ts fs → (∀ t ∈ ts, t.Valid) → Value.ValidFields fs
  | [], _, .nil, _ => trivial
  | ⟨_, _⟩ :: _, _, .cons (.field _ h) hs, ht => by
    simp only [List.forall_mem_append, List.forall_mem_cons] at ht
    exact ⟨⟨ht.1.1, valid_value h ht.1.2.2⟩, valid_objectFields hs ht.2⟩

end

theorem keeps_value : Keeps ValuePhrase Value.Valid := fun _ _ => valid_value

theorem keeps_objectField : Keeps ObjectFieldPhrase ObjectField.Valid := by
  intro ts f h ht
  obtain ⟨text, hv⟩ := h
  simp only [List.forall_mem_cons] at ht
  exact ⟨ht.1, valid_value hv ht.2.2⟩

theorem keeps_namedType : Keeps NamedTypePhrase NamedType.Valid := by
  intro ts t h ht
  obtain ⟨text⟩ := h
  exact ht (.name text) (by simp)

mutual

theorem valid_typeRef : ∀ {t : TypeRef} {ts : List Token}, TypePhrase ts t →
    (∀ t ∈ ts, t.Valid) → t.Valid
  | .named _, _, .nullable h, ht => (valid_nullable h ht).1
  | .list _, _, .nullable h, ht => (valid_nullable h ht).1
  | .nonNull _, _, .nonNull h, ht => by
    rw [List.forall_mem_append] at ht
    exact valid_nullable h ht.1

theorem valid_nullable : ∀ {t : TypeRef} {ts : List Token}, NullableTypePhrase ts t →
    (∀ t ∈ ts, t.Valid) → t.Valid ∧ ∀ u, t ≠ .nonNull u
  | .named _, _, .named h, ht => ⟨keeps_namedType h ht, by simp⟩
  | .list t, _, .list h, ht => by
    simp only [List.cons_append, List.forall_mem_cons, List.forall_mem_append] at ht
    exact ⟨valid_typeRef (t := t) h ht.2.1, by simp⟩

end

/-! ## Arguments and selections -/

theorem keeps_argument : Keeps ArgumentPhrase Argument.Valid := by
  intro ts a h ht
  obtain ⟨text, hv⟩ := h
  simp only [List.forall_mem_cons] at ht
  exact ⟨ht.1, valid_value hv ht.2.2⟩

theorem keeps_directive : Keeps DirectivePhrase Directive.Valid := by
  intro ts d h ht
  obtain ⟨text, has⟩ := h
  simp only [List.forall_mem_cons] at ht
  exact ⟨ht.2.1, keeps_argument.group has ht.2.2⟩

theorem keeps_fieldName :
    Keeps FieldNamePhrase (fun n => (∀ a ∈ n.1, a.Valid) ∧ n.2.Valid) := by
  intro ts n h ht
  rcases h with ⟨text⟩ | ⟨other, text⟩
  · exact ⟨by rintro a ⟨⟩, ht (.name text) (by simp)⟩
  · refine ⟨?_, ht (.name text) (by simp)⟩
    intro a ha
    cases ha
    exact ht (.name other) (by simp)

theorem keeps_fragmentSpread : Keeps FragmentSpreadPhrase FragmentSpread.Valid := by
  intro ts s h ht
  obtain ⟨hon, hds⟩ := h
  simp only [List.forall_mem_cons] at ht
  exact ⟨ht.2.1, hon, keeps_directive.many hds ht.2.2⟩

theorem keeps_condition : Keeps ConditionPhrase NamedType.Valid := by
  intro ts t hx ht
  obtain ⟨h⟩ := hx
  exact keeps_namedType h (List.forall_mem_cons.mp ht).2

mutual

theorem valid_selection : ∀ {s : Selection} {ts : List Token}, SelectionPhrase ts s →
    (∀ t ∈ ts, t.Valid) → s.Valid
  | .field _, _, .field h, ht => valid_field h ht
  | .fragmentSpread _, _, .fragmentSpread h, ht => keeps_fragmentSpread h ht
  | .inlineFragment _, _, .inlineFragment h, ht => valid_inlineFragment h ht

theorem valid_field : ∀ {f : Field} {ts : List Token}, FieldPhrase ts f →
    (∀ t ∈ ts, t.Valid) → f.Valid
  | ⟨_, _, _, _, none⟩, _, .field hn has hds .none, ht => by
    simp only [List.forall_mem_append] at ht
    have hname := keeps_fieldName hn ht.1
    exact ⟨hname.1, hname.2, keeps_argument.group has ht.2.1, keeps_directive.many hds ht.2.2.1,
      trivial⟩
  | ⟨_, _, _, _, some _⟩, _, .field hn has hds (.some hset), ht => by
    simp only [List.forall_mem_append] at ht
    have hname := keeps_fieldName hn ht.1
    exact ⟨hname.1, hname.2, keeps_argument.group has ht.2.1, keeps_directive.many hds ht.2.2.1,
      valid_selectionSet hset ht.2.2.2⟩

theorem valid_inlineFragment : ∀ {f : InlineFragment} {ts : List Token},
    InlineFragmentPhrase ts f → (∀ t ∈ ts, t.Valid) → f.Valid
  | ⟨_, _, _⟩, _, .fragment hc hds hset, ht => by
    simp only [List.forall_mem_cons, List.forall_mem_append] at ht
    exact ⟨keeps_condition.opt hc ht.2.1, keeps_directive.many hds ht.2.2.1,
      valid_selectionSet hset ht.2.2.2⟩

theorem valid_selectionSet : ∀ {s : SelectionSet} {ts : List Token}, SelectionSetPhrase ts s →
    (∀ t ∈ ts, t.Valid) → s.Valid
  | ⟨_⟩, _, .set h hne, ht => by
    simp only [List.cons_append, List.forall_mem_cons, List.forall_mem_append] at ht
    exact ⟨hne, valid_selections h ht.2.1⟩

theorem valid_selections : ∀ {ss : List Selection} {ts : List Token},
    Many SelectionPhrase ts ss → (∀ t ∈ ts, t.Valid) → Selection.ValidList ss
  | [], _, .nil, _ => trivial
  | _ :: _, _, .cons h hs, ht => by
    rw [List.forall_mem_append] at ht
    exact ⟨valid_selection h ht.1, valid_selections hs ht.2⟩

end

/-! ## Definitions and documents -/

theorem keeps_default : Keeps DefaultPhrase Value.Valid := by
  intro ts v h ht
  obtain ⟨hv⟩ := h
  exact valid_value hv (List.forall_mem_cons.mp ht).2

theorem keeps_variableDefinition : Keeps VariableDefinitionPhrase VariableDefinition.Valid := by
  intro ts d h ht
  obtain ⟨hv, htype, ho, hds⟩ := h
  simp only [List.forall_mem_cons, List.forall_mem_append] at ht
  exact ⟨keeps_variable hv ht.1, valid_typeRef htype ht.2.2.1, keeps_default.opt ho ht.2.2.2.1,
    keeps_directive.many hds ht.2.2.2.2⟩

theorem keeps_operationDefinition :
    Keeps OperationDefinitionPhrase OperationDefinition.Valid := by
  intro ts o h ht
  obtain ⟨-, hn, hvs, hds, hset⟩ := h
  simp only [List.forall_mem_append] at ht
  exact ⟨keeps_name.opt hn ht.2.1, keeps_variableDefinition.group hvs ht.2.2.1,
    keeps_directive.many hds ht.2.2.2.1, valid_selectionSet hset ht.2.2.2.2⟩

theorem keeps_fragmentDefinition : Keeps FragmentDefinitionPhrase FragmentDefinition.Valid := by
  intro ts f h ht
  obtain ⟨hon, hc, hds, hset⟩ := h
  simp only [List.forall_mem_cons, List.forall_mem_append] at ht
  exact ⟨ht.2.1, hon, keeps_condition hc ht.2.2.1, keeps_directive.many hds ht.2.2.2.1,
    valid_selectionSet hset ht.2.2.2.2⟩

theorem keeps_definition : Keeps DefinitionPhrase Definition.Valid := by
  intro ts d hx ht
  rcases hx with h | h
  · exact keeps_operationDefinition h ht
  · exact keeps_fragmentDefinition h ht

theorem keeps_document : Keeps DocumentPhrase Document.Valid := by
  intro ts d hphrase ht
  rcases hphrase with h | ⟨hds, hne⟩
  · have hset := valid_selectionSet h ht
    refine ⟨by simp, ?_⟩
    intro x hx
    cases List.mem_singleton.mp hx
    exact ⟨by rintro n ⟨⟩, by simp [OperationDefinition.ofSelectionSet],
      by simp [OperationDefinition.ofSelectionSet], hset⟩
  · exact ⟨hne, keeps_definition.many hds ht⟩

/-! ## Entries -/

theorem keeps_asNode {α : Type} [IsNode α] {p : Phrase α} {valid : α → Prop} (hp : Keeps p valid)
    (h : ∀ a, valid a → (IsNode.toNode a).Valid) : Keeps (asNode p) Node.Valid := by
  rintro ts n ⟨a, ha, rfl⟩ ht
  exact h a (hp ha ht)

theorem keeps_sort (kind : Kind) : Keeps (Entry.sort kind) Value.Valid :=
  fun _ _ h => valid_value h.2

theorem keeps_entry (e : Entry) : Keeps e.phrase Node.Valid := by
  match e with
  | .document => exact keeps_asNode keeps_document fun _ h => h
  | .definition => exact keeps_asNode keeps_definition fun d => (Node.valid_ofDefinition d).mpr
  | .operationDefinition => exact keeps_asNode keeps_operationDefinition fun _ h => h
  | .fragmentDefinition => exact keeps_asNode keeps_fragmentDefinition fun _ h => h
  | .variableDefinition => exact keeps_asNode keeps_variableDefinition fun _ h => h
  | .typeRef => exact keeps_asNode (fun _ _ => valid_typeRef) fun t => (Node.valid_ofTypeRef t).mpr
  | .namedType => exact keeps_asNode keeps_namedType fun _ h => h
  | .selectionSet => exact keeps_asNode (fun _ _ => valid_selectionSet) fun _ h => h
  | .selection =>
    exact keeps_asNode (fun _ _ => valid_selection) fun s => (Node.valid_ofSelection s).mpr
  | .field => exact keeps_asNode (fun _ _ => valid_field) fun _ h => h
  | .fragmentSpread => exact keeps_asNode keeps_fragmentSpread fun _ h => h
  | .inlineFragment => exact keeps_asNode (fun _ _ => valid_inlineFragment) fun _ h => h
  | .directive => exact keeps_asNode keeps_directive fun _ h => h
  | .argument => exact keeps_asNode keeps_argument fun _ h => h
  | .name => exact keeps_asNode keeps_name fun _ h => h
  | .variable => exact keeps_asNode keeps_variable fun _ h => h
  | .value => exact keeps_asNode keeps_value fun v => (Node.valid_ofValue v).mpr
  | .booleanValue | .intValue | .floatValue | .stringValue | .enumValue | .listValue
  | .objectValue => exact keeps_asNode (keeps_sort _) fun v => (Node.valid_ofValue v).mpr
  | .objectField => exact keeps_asNode keeps_objectField fun _ h => h

/-- What a rule reads from a whole text can be written down: all terminals of the text can be
spelled. -/
theorem Phrase.Keeps.of_parse {α : Type} {p : Production α} {phrase : Phrase α} {valid : α → Prop}
    (hk : phrase.Keeps valid) (hp : phrase.Proper) (hs : Sound p.rule phrase) {source : String}
    {a : α} (h : p.parse source = .ok a) : valid a := by
  obtain ⟨ts, hts, ha⟩ := hs (Production.parse_ok.mp h)
  rw [List.append_nil] at hts
  obtain ⟨start, -, hw⟩ := Lexer.lex_iff.mp ⟨hts, hp ha⟩
  exact hk ha (valid_of_written hw)

theorem Entry.valid_of_parse {e : Entry} {source : String} {n : Node}
    (h : e.parse source = .ok n) : n.Valid :=
  (keeps_entry e).of_parse (proper_entry e) (sound_entry e) h

/-- Every node of a tree that was read follows the data model, whatever the text was read
as. -/
theorem lawful_of_parse {e : Entry} {source : String} {n : Node} (h : e.parse source = .ok n) :
    ∀ m : Node, m.Inside n → m.Lawful := by
  have hphrase := (reads_entry e).mp (Production.parse_ok.mp h)
  obtain ⟨start, -, hw⟩ := Lexer.lex_iff.mp ⟨rfl, proper_entry e hphrase⟩
  exact n.valid_iff_throughout.mp (keeps_entry e hphrase (valid_of_written hw))

/-- A field with a number in a list. -/
def numberField : Node :=
  .field ⟨none, ⟨"f"⟩, [⟨⟨"x"⟩, .list [.float "-0.5"]⟩], [], none⟩

theorem lawful_of_parse_number :
    Entry.field.parse "f (x: [-0.5])" = .ok numberField ∧
      Node.Inside (.value (.float "-0.5")) numberField ∧
      Node.Lawful (.value (.float "-0.5")) := by
  have h : Entry.field.parse "f (x: [-0.5])" = .ok numberField :=
    ok_of_toOption (by decide +kernel)
  have hlist : Node.Inside (.value (.float "-0.5")) (.value (.list [.float "-0.5"])) :=
    .deeper (.head _) (.self _)
  have hargument : Node.Inside (.value (.float "-0.5"))
      (.argument ⟨⟨"x"⟩, .list [.float "-0.5"]⟩) :=
    .deeper (.tail _ (.head _)) hlist
  have hinside : Node.Inside (.value (.float "-0.5")) numberField :=
    .deeper (.tail _ (.head _)) hargument
  exact ⟨h, hinside, lawful_of_parse h _ hinside⟩

end QueryDoc
