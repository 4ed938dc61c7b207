import QueryDoc.Proofs.Grammar.Acceptance
import QueryDoc.Proofs.Print.Derived
import QueryDoc.Proofs.Print.Layout

/-! Reading a printed node back. A valid node is read back as itself with its blocks
fitted, except where an operation that is printed as its selection set alone stands in
a place that asks for more: as an operation or a definition, or beside other
definitions. -/
namespace QueryDoc
open IsNode Rule Phrase

/-! ## Nodes as parts -/

namespace Entry

/-- The nodes that an entry is for, in either form of a variable or a named type. -/
def Admits (e : Entry) (n : Node) : Prop :=
  match e with
  | .document => ∃ d : Document, toNode d = n.plain
  | .definition => ∃ d : Definition, toNode d = n.plain
  | .operationDefinition => ∃ o : OperationDefinition, toNode o = n.plain
  | .fragmentDefinition => ∃ f : FragmentDefinition, toNode f = n.plain
  | .variableDefinition => ∃ v : VariableDefinition, toNode v = n.plain
  | .typeRef => ∃ t : TypeRef, toNode t = n.plain
  | .namedType => ∃ t : NamedType, toNode t = n.plain
  | .selectionSet => ∃ s : SelectionSet, toNode s = n.plain
  | .selection => ∃ s : Selection, toNode s = n.plain
  | .field => ∃ f : Field, toNode f = n.plain
  | .fragmentSpread => ∃ s : FragmentSpread, toNode s = n.plain
  | .inlineFragment => ∃ f : InlineFragment, toNode f = n.plain
  | .directive => ∃ d : Directive, toNode d = n.plain
  | .argument => ∃ a : Argument, toNode a = n.plain
  | .name => ∃ m : Name, toNode m = n.plain
  | .variable => ∃ v : Variable, toNode v = n.plain
  | .value => ∃ v : Value, toNode v = n.plain
  | .objectField => ∃ f : ObjectField, toNode f = n.plain
  | .booleanValue => ∃ v : Value, v.kind = .booleanValue ∧ toNode v = n.plain
  | .intValue => ∃ v : Value, v.kind = .intValue ∧ toNode v = n.plain
  | .floatValue => ∃ v : Value, v.kind = .floatValue ∧ toNode v = n.plain
  | .stringValue => ∃ v : Value, v.kind = .stringValue ∧ toNode v = n.plain
  | .enumValue => ∃ v : Value, v.kind = .enumValue ∧ toNode v = n.plain
  | .listValue => ∃ v : Value, v.kind = .listValue ∧ toNode v = n.plain
  | .objectValue => ∃ v : Value, v.kind = .objectValue ∧ toNode v = n.plain

/-- Where a printed node does not say enough to be read back as it is asked for: an
operation that is printed as its selection set alone is read as a document only, and
only where it is the only definition. -/
def TooShort (e : Entry) (n : Node) : Prop :=
  (e = .operationDefinition ∨ e = .definition) ∧
      (∃ o, n = .operationDefinition o ∧ o.isShorthand = true) ∨
    e = .document ∧ ∃ d, n = .document d ∧ 2 ≤ d.definitions.length ∧
      ∃ x ∈ d.definitions, x.isShorthand = true

end Entry

theorem pieces_plain (o : PrintOptions) (level : Nat) (n : Node) :
    n.plain.pieces o level = n.pieces o level := by
  match n with
  | .value v => cases v <;> rfl
  | .typeRef t => cases t <;> rfl
  | .document _ | .operationDefinition _ | .fragmentDefinition _ | .variableDefinition _
  | .selectionSet _ | .field _ | .fragmentSpread _ | .inlineFragment _ | .argument _
  | .directive _ | .variable _ | .name _ | .namedType _ | .objectField _ => rfl

theorem valid_plain {n : Node} (h : n.Valid) : n.plain.Valid := by
  match n with
  | .value v => cases v <;> exact h
  | .typeRef t => cases t <;> exact h
  | .document _ | .operationDefinition _ | .fragmentDefinition _ | .variableDefinition _
  | .selectionSet _ | .field _ | .fragmentSpread _ | .inlineFragment _ | .argument _
  | .directive _ | .variable _ | .name _ | .namedType _ | .objectField _ => exact h

section Parts
variable {α : Type} [IsNode α] {p : Phrase α} {n : Node} {o : PrintOptions} {level : Nat}

/-- A part whose printed form is derived, as the node that it stands for. -/
theorem derives_part {a b : α} (hv : n.Valid) (ha : toNode a = n.plain)
    (hb : toNode b = (toNode a).fitted)
    (h : (toNode a).Valid → p (tokensOf ((toNode a).pieces o level)) b) :
    asNode p (tokensOf (n.pieces o level)) n.plain.fitted := by
  rw [← pieces_plain, ← ha]
  exact ⟨b, h (ha ▸ valid_plain hv), hb⟩

theorem derives_asNode_value {v : Value} (h : (toNode v).Valid) :
    ValuePhrase (tokensOf ((toNode v).pieces o level)) v.fitted := by
  have hvalid : v.Valid := by cases v <;> exact h
  have hpieces : (toNode v).pieces o level = v.pieces := by cases v <;> rfl
  rw [hpieces]
  exact derives_value hvalid

theorem fitted_value (v : Value) : toNode v.fitted = (toNode v).fitted := by
  cases v <;> rfl

theorem kind_fitted (v : Value) : v.fitted.kind = v.kind := by
  cases v <;> rfl

theorem derives_sort {kind : Kind} (hv : n.Valid)
    (ha : ∃ v : Value, v.kind = kind ∧ toNode v = n.plain) :
    asNode (Entry.sort kind) (tokensOf (n.pieces o level)) n.plain.fitted := by
  obtain ⟨v, hk, hv'⟩ := ha
  exact derives_part hv hv' (fitted_value v) fun h =>
    ⟨by rw [kind_fitted, hk], derives_asNode_value h⟩

end Parts

/-- Only values and types have another form. -/
theorem eq_of_plain {n m : Node} (h : n.plain = m) (hv : ∀ v, m ≠ Node.ofValue v)
    (ht : ∀ t, m ≠ Node.ofTypeRef t) : n = m := by
  match n with
  | .value v => exact absurd h.symm (hv v)
  | .typeRef t => exact absurd h.symm (ht t)
  | .document _ | .operationDefinition _ | .fragmentDefinition _ | .variableDefinition _
  | .selectionSet _ | .field _ | .fragmentSpread _ | .inlineFragment _ | .argument _
  | .directive _ | .variable _ | .name _ | .namedType _ | .objectField _ => exact h

theorem eq_operation {n : Node} {o : OperationDefinition}
    (h : n.plain = .operationDefinition o) : n = .operationDefinition o :=
  eq_of_plain h (by rintro (_ | _ | _ | _ | _ | _ | _ | _ | _) ⟨⟩) (by rintro (_ | _ | _) ⟨⟩)

theorem eq_document {n : Node} {d : Document} (h : n.plain = .document d) : n = .document d :=
  eq_of_plain h (by rintro (_ | _ | _ | _ | _ | _ | _ | _ | _) ⟨⟩) (by rintro (_ | _ | _) ⟨⟩)

theorem operation_long_enough {e : Entry} {n : Node} {o : OperationDefinition}
    (he : e = .operationDefinition ∨ e = .definition) (hn : n = .operationDefinition o)
    (hs : ¬ e.TooShort n) : o.isShorthand = false := by
  cases h : o.isShorthand with
  | false => rfl
  | true => exact absurd (.inl ⟨he, o, hn, h⟩) hs

theorem definitions_long_enough {n : Node} {d : Document} (hn : n = .document d) (hd : d.Valid)
    (hs : ¬ Entry.TooShort .document n) :
    d.definitions.length = 1 ∨ ∀ x ∈ d.definitions, x.isShorthand = false := by
  by_cases hlength : 2 ≤ d.definitions.length
  · right
    intro x hx
    cases h : x.isShorthand with
    | false => rfl
    | true => exact absurd (.inr ⟨rfl, d, hn, hlength, x, hx, h⟩) hs
  · left
    have := List.length_pos_iff.mpr hd.1
    omega

/-- The printed form of a node is the construct that an entry stands for, unless it is
too short for that. -/
theorem derives_node (o : PrintOptions) (level : Nat) {e : Entry} {n : Node} (hv : n.Valid)
    (ha : e.Admits n) (hs : ¬ e.TooShort n) :
    e.phrase (tokensOf (n.pieces o level)) n.plain.fitted := by
  match e with
  -- Only these three can be too short; the other entries need no more than a valid node.
  | .document =>
    obtain ⟨d, hd⟩ := ha
    exact derives_part hv hd (b := d.fitted) rfl fun h =>
      derives_document o level h (definitions_long_enough (eq_document hd.symm) h hs)
  | .definition =>
    obtain ⟨d, hd⟩ := ha
    cases d with
    | operation d =>
      have hlong := operation_long_enough (.inr rfl) (eq_operation hd.symm) hs
      exact derives_part hv hd (b := .operation d.fitted) rfl fun h =>
        derives_definition o level (d := .operation d) h hlong
    | fragment f =>
      exact derives_part hv hd (b := .fragment f.fitted) rfl fun h =>
        derives_definition o level (d := .fragment f) h rfl
  | .operationDefinition =>
    obtain ⟨d, hd⟩ := ha
    have hlong := operation_long_enough (.inl rfl) (eq_operation hd.symm) hs
    exact derives_part hv hd (b := d.fitted) rfl fun h => derives_operation o level h hlong
  | .fragmentDefinition =>
    obtain ⟨f, hf⟩ := ha
    exact derives_part hv hf (b := f.fitted) rfl (derives_fragmentDefinition o level)
  | .variableDefinition =>
    obtain ⟨v, hv'⟩ := ha
    exact derives_part hv hv' (b := v.fitted) rfl derives_variableDefinition
  | .typeRef =>
    obtain ⟨t, ht⟩ := ha
    refine derives_part hv ht (b := t) (by cases t <;> rfl) fun h => ?_
    -- A named type as a type is printed as the named type itself.
    have hvalid : t.Valid := by cases t <;> exact h
    have hpieces : (toNode t).pieces o level = t.pieces := by cases t <;> rfl
    rw [hpieces]
    exact derives_typeRef hvalid
  | .namedType =>
    obtain ⟨t, ht⟩ := ha
    exact derives_part hv ht (b := t) rfl fun _ => derives_namedType t
  | .selectionSet =>
    obtain ⟨s, hs⟩ := ha
    exact derives_part hv hs (b := s.fitted) rfl (derives_selectionSet o level)
  | .selection =>
    obtain ⟨s, hs⟩ := ha
    refine derives_part hv hs (b := s.fitted) (by cases s <;> rfl) fun h => ?_
    have hvalid : s.Valid := by cases s <;> exact h
    have hpieces : (toNode s).pieces o level = s.pieces o level := by cases s <;> rfl
    rw [hpieces]
    exact derives_selection o level hvalid
  | .field =>
    obtain ⟨f, hf⟩ := ha
    exact derives_part hv hf (b := f.fitted) rfl (derives_field o level)
  | .fragmentSpread =>
    obtain ⟨s, hs⟩ := ha
    exact derives_part hv hs (b := s.fitted) rfl derives_fragmentSpread
  | .inlineFragment =>
    obtain ⟨f, hf⟩ := ha
    exact derives_part hv hf (b := f.fitted) rfl (derives_inlineFragment o level)
  | .directive =>
    obtain ⟨d, hd⟩ := ha
    exact derives_part hv hd (b := d.fitted) rfl derives_directive
  | .argument =>
    obtain ⟨a, ha⟩ := ha
    exact derives_part hv ha (b := a.fitted) rfl derives_argument
  | .name =>
    obtain ⟨m, hm⟩ := ha
    exact derives_part hv hm (b := m) rfl fun _ => .name m.text
  | .variable =>
    obtain ⟨v, hv'⟩ := ha
    exact derives_part hv hv' (b := v) rfl fun _ => derives_variable v
  | .value =>
    obtain ⟨v, hv'⟩ := ha
    exact derives_part hv hv' (fitted_value v) derives_asNode_value
  | .objectField =>
    obtain ⟨f, hf⟩ := ha
    exact derives_part hv hf (b := f.fitted) rfl derives_objectField
  | .booleanValue | .intValue | .floatValue | .stringValue | .enumValue | .listValue
  | .objectValue => exact derives_sort hv ha

/-! ## What is too short -/

/-- A definition is either a selection set alone or starts with a name. -/
theorem definition_ne_nil (o : PrintOptions) (level : Nat) {d : Definition} (h : d.Valid) :
    tokensOf (d.pieces o level) ≠ [] := by
  intro hnil
  cases hs : d.isShorthand with
  | false =>
    obtain ⟨_, _, heq, -⟩ := starts_definition (derives_definition o level h hs)
    rw [hnil] at heq
    cases heq
  | true =>
    cases d with
    | fragment f => cases hs
    | operation d =>
      obtain ⟨_, _, heq, -⟩ := starts_selectionSet (derives_shorthand o level h hs)
      rw [Definition.pieces] at hnil
      rw [hnil] at heq
      cases heq

/-- A selection set alone is no definition. -/
theorem not_definition {ts : List Token} {s : SelectionSet} {d : Definition}
    (hs : SelectionSetPhrase ts s) : ¬ DefinitionPhrase ts d := by
  intro hd
  obtain ⟨t, us, rfl, ht⟩ := starts_selectionSet hs
  obtain ⟨t', us', heq, ht'⟩ := starts_definition hd
  injection heq with heq _
  rw [← heq, eq_of_beq ht] at ht'
  cases ht'

/-- A selection set alone and definitions are no document together: it is read up to
the selection set or only that, and not to the end. -/
theorem not_document (o : PrintOptions) (level : Nat) {d e : Document} (hv : d.Valid)
    (hlength : 2 ≤ d.definitions.length) (hs : ∃ x ∈ d.definitions, x.isShorthand = true) :
    ¬ DocumentPhrase (tokensOf (d.pieces o level)) e := by
  -- The first selection set alone, with definitions before it or after it.
  obtain ⟨x, hx⟩ : ∃ x, d.definitions.find? (·.isShorthand) = some x :=
    Option.isSome_iff_exists.mp (by simpa using hs)
  obtain ⟨hxs, before, after, heq, hbefore⟩ := List.find?_eq_some_iff_append.mp hx
  match x, hxs with
  | .operation x, hxs =>
    have hset : SelectionSetPhrase (tokensOf ((Definition.operation x).pieces o level))
        x.selectionSet.fitted :=
      derives_shorthand o level (hv.2 (.operation x) (by simp [heq])) hxs
    rw [tokensOf_document, heq, List.flatMap_append, List.flatMap_cons]
    by_cases hne : before = []
    · subst hne
      rw [List.flatMap_nil, List.nil_append]
      match after with
      | [] => simp [heq] at hlength
      | y :: after =>
        have hy : y.Valid := hv.2 y (by simp [heq])
        rw [List.flatMap_cons]
        exact not_document_after hset
          (List.append_ne_nil_of_left_ne_nil (definition_ne_nil o level hy) _)
    · have hvalid : ∀ y ∈ before, y.Valid := fun y hy => hv.2 y (by simp [heq, hy])
      have hmany := derives_definitions o level hvalid
        (fun y hy => by simpa using hbefore y hy)
      exact not_document_before hmany (by simpa using hne) hset _

/-- The printed form of a node that is too short is no construct of the entry. -/
theorem not_phrase_of_tooShort (o : PrintOptions) (level : Nat) {e : Entry} {n : Node}
    (hv : n.Valid) (hs : e.TooShort n) (m : Node) :
    ¬ e.phrase (tokensOf (n.pieces o level)) m := by
  rcases hs with ⟨he, d, rfl, hd⟩ | ⟨rfl, d, rfl, hlength, hx⟩
  · have hset := derives_shorthand o level hv hd
    rcases he with rfl | rfl
    · intro h
      obtain ⟨x, hx, -⟩ := h
      exact not_definition hset (.operation hx)
    · intro h
      obtain ⟨x, hx, -⟩ := h
      exact not_definition hset hx
  · intro h
    obtain ⟨x, hphrase, -⟩ := h
    exact not_document o level hv hlength hx hphrase

/-! ## Reading back -/

/-- A printed node is read as what its terminals are. -/
theorem parse_printAt (o : PrintOptions) (level : Nat) {e : Entry} {n m : Node} (hv : n.Valid) :
    e.parse (n.printAt o level) = .ok m ↔ e.phrase (tokensOf (n.pieces o level)) m := by
  rw [Entry.parse_iff_phrase, lex_printAt o level hv]

theorem parse_printAt_of_long (o : PrintOptions) (level : Nat) {e : Entry} {n : Node}
    (hv : n.Valid) (ha : e.Admits n) (hs : ¬ e.TooShort n) :
    e.parse (n.printAt o level) = .ok n.plain.fitted :=
  (parse_printAt o level hv).mpr (derives_node o level hv ha hs)

theorem parse_printAt_of_tooShort (o : PrintOptions) (level : Nat) {e : Entry} {n : Node}
    (hv : n.Valid) (hs : e.TooShort n) :
    ∃ failure, e.parse (n.printAt o level) = .error failure := by
  cases h : e.parse (n.printAt o level) with
  | error failure => exact ⟨failure, rfl⟩
  | ok m => exact absurd ((parse_printAt o level hv).mp h) (not_phrase_of_tooShort o level hv hs m)

/-- The law of reading back what was printed. It fails just where an operation that says
no more than its selection set is asked for as an operation or a definition, or stands
beside other definitions; everything else is read back with its blocks fitted. -/
theorem parse_print (e : Entry) (n : Node) (ha : e.Admits n) (hv : n.Valid) :
    ((∃ failure, e.parse n.print = .error failure) ↔ e.TooShort n) ∧
      (¬ e.TooShort n → e.parse n.print = .ok n.plain.fitted) := by
  refine ⟨⟨?_, parse_printAt_of_tooShort .default 0 hv⟩, parse_printAt_of_long .default 0 hv ha⟩
  intro h
  obtain ⟨failure, hfailure⟩ := h
  by_cases hs : e.TooShort n
  · exact hs
  · have hok : e.parse n.print = .ok n.plain.fitted := parse_printAt_of_long .default 0 hv ha hs
    rw [hfailure] at hok
    cases hok

/-- A field with a directive and a block that ends in a backslash. -/
def slashField (block : Bool) : Node :=
  .field ⟨some ⟨"x"⟩, ⟨"a"⟩, [⟨⟨"b"⟩, .string "\\" block⟩], [⟨⟨"d"⟩, []⟩], none⟩

theorem parse_print_slash :
    (Entry.field.Admits (slashField true) ∧ (slashField true).Valid) ∧
      ((∃ failure, Entry.field.parse (slashField true).print = .error failure) ↔
        Entry.field.TooShort (slashField true)) ∧
      Entry.field.parse (slashField true).print = .ok (slashField false) := by
  have ha : Entry.field.Admits (slashField true) := ⟨_, rfl⟩
  have hv : (slashField true).Valid := by
    refine ⟨?_, rfl, ?_, ?_, trivial⟩
    · intro n h
      obtain ⟨⟩ := h
      rfl
    · exact List.forall_mem_singleton.mpr ⟨rfl, trivial⟩
    · exact List.forall_mem_singleton.mpr ⟨rfl, by rintro a ⟨⟩⟩
  have hs : ¬ Entry.field.TooShort (slashField true) := by
    rintro (⟨he | he, -⟩ | ⟨he, -⟩) <;> cases he
  exact ⟨⟨ha, hv⟩, (parse_print .field (slashField true) ha hv).1,
    (parse_print .field (slashField true) ha hv).2 hs⟩

end QueryDoc
