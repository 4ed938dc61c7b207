import QueryDoc.Print.Node
import QueryDoc.Proofs.Grammar.Phrase
import QueryDoc.Proofs.Print.Neat
import QueryDoc.Proofs.Tree.Valid

/-! The printed form of a valid node is in the language: its terminals are derived by the
grammar, and the tree is the node again with its blocks fitted. Neither the options nor
the indentation have a part in that. By recursion on the tree, one lemma for each kind
of node. -/
namespace QueryDoc
open Phrase

variable {α β : Type}

/-! ## Lists of parts -/

theorem tokensOf_joined (rows : List (List Piece)) :
    tokensOf (joinPieces rows) = rows.flatMap tokensOf := by
  match rows with
  | [] => rfl
  | [row] => simp [joinPieces]
  | row :: next :: rows =>
    simp only [joinPieces, tokensOf_append, tokensOf_comma, List.flatMap_cons]
    rw [tokensOf_joined (next :: rows), List.flatMap_cons]

theorem many_flatMap {p : Phrase β} {f : α → List Token} {g : α → β} {xs : List α}
    (h : ∀ x ∈ xs, p (f x) (g x)) : Many p (xs.flatMap f) (xs.map g) := by
  induction xs with
  | nil => exact .nil
  | cons x xs ih =>
    rw [List.flatMap_cons, List.map_cons]
    exact .cons (h x (by simp)) (ih fun y hy => h y (List.mem_cons_of_mem _ hy))

theorem many_joined {p : Phrase β} {f : α → List Piece} {g : α → β} {xs : List α}
    (h : ∀ x ∈ xs, p (tokensOf (f x)) (g x)) :
    Many p (tokensOf (joinPieces (xs.map f))) (xs.map g) := by
  rw [tokensOf_joined, List.flatMap_map]
  exact many_flatMap h

theorem tokensOf_flatMap (f : α → List Piece) (xs : List α) :
    tokensOf (xs.flatMap f) = xs.flatMap fun x => tokensOf (f x) := by
  rw [tokensOf, List.filterMap_flatMap]
  rfl

/-! ## Names, values and types -/

theorem derives_variable (v : Variable) : VariablePhrase (tokensOf v.pieces) v :=
  .variable v.name.text

mutual

theorem derives_value : ∀ {v : Value}, v.Valid → ValuePhrase (tokensOf v.pieces) v.fitted
  | .null, _ => .null
  | .boolean true, _ => .true
  | .boolean false, _ => .false
  | .int _, h => .int h.2
  | .float _, h => .float h.2
  | .string content block, _ => by
    rw [Value.fitted_string]
    exact .string _ _
  | .enum _, h => .enum h.2
  | .variable v, _ => .variable (derives_variable v)
  | .list vs, h => by
    simp only [Value.pieces, List.cons_append, tokensOf_token, tokensOf_append, tokensOf_joined]
    exact .list (derives_values h)
  | .object fs, h => by
    simp only [Value.pieces, List.cons_append, tokensOf_token, tokensOf_append, tokensOf_joined]
    exact .object (derives_objectFields h)

theorem derives_values : ∀ {vs : List Value}, Value.ValidList vs →
    Many ValuePhrase ((Value.piecesList vs).flatMap tokensOf) (Value.fittedList vs)
  | [], _ => .nil
  | _ :: _, h => .cons (derives_value h.1) (derives_values h.2)

theorem derives_objectFields : ∀ {fs : List ObjectField}, Value.ValidFields fs →
    Many ObjectFieldPhrase ((Value.piecesFields fs).flatMap tokensOf) (Value.fittedFields fs)
  | [], _ => .nil
  | ⟨n, _⟩ :: _, h => .cons (.field n.text (derives_value h.1.2)) (derives_objectFields h.2)

end

theorem derives_objectField {f : ObjectField} (h : f.Valid) :
    ObjectFieldPhrase (tokensOf f.pieces) f.fitted :=
  .field f.name.text (derives_value h.2)

theorem derives_namedType (t : NamedType) : NamedTypePhrase (tokensOf t.pieces) t :=
  .named t.name.text

/-- A type that excludes null can only be written with a mark, any other only without. -/
theorem nullable_of_type {ts : List Token} {t : TypeRef} (h : TypePhrase ts t)
    (hn : ∀ u, t ≠ .nonNull u) : NullableTypePhrase ts t := by
  cases h with
  | nullable h => exact h
  | nonNull => exact absurd rfl (hn _)

theorem derives_typeRef {t : TypeRef} (h : t.Valid) : TypePhrase (tokensOf t.pieces) t := by
  induction t with
  | named t => exact .nullable (.named (derives_namedType t))
  | list item ih =>
    simp only [TypeRef.pieces, List.cons_append, tokensOf_token, tokensOf_append]
    exact .nullable (.list (ih h))
  | nonNull inner ih =>
    simp only [TypeRef.pieces, tokensOf_append]
    exact .nonNull (nullable_of_type (ih h.1) h.2)

/-! ## Arguments and selections -/

theorem derives_argument {a : Argument} (h : a.Valid) :
    ArgumentPhrase (tokensOf a.pieces) a.fitted :=
  .argument a.name.text (derives_value h.2)

theorem derives_arguments {as : List Argument} (h : ∀ a ∈ as, a.Valid) :
    Group ArgumentPhrase (tokensOf (argumentPieces as)) (as.map (·.fitted)) := by
  rw [argumentPieces]
  split
  · rename_i hempty
    rw [List.isEmpty_iff] at hempty
    subst hempty
    exact .none
  · rename_i hempty
    simp only [List.cons_append, tokensOf_token, tokensOf_append]
    exact .some (many_joined fun a ha => derives_argument (h a ha)) (by simpa using hempty)

theorem derives_directive {d : Directive} (h : d.Valid) :
    DirectivePhrase (tokensOf d.pieces) d.fitted :=
  .directive d.name.text (derives_arguments h.2)

theorem derives_directives {ds : List Directive} (h : ∀ d ∈ ds, d.Valid) :
    Many DirectivePhrase (tokensOf (directivePieces ds)) (ds.map (·.fitted)) := by
  rw [directivePieces, tokensOf_flatMap]
  exact many_flatMap fun d hd => derives_directive (h d hd)

theorem derives_fieldName (aliasName : Option Name) (name : Name) :
    FieldNamePhrase (tokensOf (fieldNamePieces aliasName name)) (aliasName, name) := by
  cases aliasName with
  | none => exact .plain name.text
  | some a => exact .aliased a.text name.text

/-- Arguments on lines of their own are the same terminals as on one line. -/
theorem tokensOf_folded (level : Nat) {as : List Argument} (h : as ≠ []) :
    tokensOf (foldedArgumentPieces level as) = tokensOf (argumentPieces as) := by
  have hempty : as.isEmpty = false := by simpa using h
  rw [foldedArgumentPieces, argumentPieces, hempty]
  simp only [Bool.false_eq_true, if_false, List.cons_append, tokensOf_token, tokensOf_append,
    tokensOf_line, tokensOf_flatMap, tokensOf_joined, List.flatMap_map]

theorem tokensOf_fieldHead (o : PrintOptions) (level : Nat) (aliasName : Option Name)
    (name : Name) (as : List Argument) :
    tokensOf (fieldHeadPieces o level aliasName name as) =
      tokensOf (fieldNamePieces aliasName name) ++ tokensOf (argumentPieces as) := by
  rw [fieldHeadPieces]
  split
  · rename_i hfold
    have hne : as ≠ [] := by
      simp only [Bool.and_eq_true, Bool.not_eq_true', List.isEmpty_eq_false_iff] at hfold
      exact hfold.2
    rw [tokensOf_append, tokensOf_folded level hne]
  · rw [tokensOf_append]

theorem derives_fragmentSpread {s : FragmentSpread} (h : s.Valid) :
    FragmentSpreadPhrase (tokensOf s.pieces) s.fitted :=
  .spread h.2.1 (derives_directives h.2.2)

theorem derives_condition (condition : Option NamedType) :
    Opt ConditionPhrase (tokensOf (conditionPieces condition)) condition := by
  cases condition with
  | none => exact .none
  | some t => exact .some (.on (derives_namedType t))

mutual

theorem derives_selection (o : PrintOptions) (level : Nat) :
    ∀ {s : Selection}, s.Valid → SelectionPhrase (tokensOf (s.pieces o level)) s.fitted
  | .field _, h => .field (derives_field o level h)
  | .fragmentSpread _, h => .fragmentSpread (derives_fragmentSpread h)
  | .inlineFragment _, h => .inlineFragment (derives_inlineFragment o level h)

theorem derives_field (o : PrintOptions) (level : Nat) :
    ∀ {f : Field}, f.Valid → FieldPhrase (tokensOf (f.pieces o level)) f.fitted
  | ⟨aliasName, name, _, _, _⟩, ⟨_, _, has, hds, hset⟩ => by
    simp only [Field.pieces, tokensOf_append, tokensOf_fieldHead, List.append_assoc]
    exact .field (derives_fieldName aliasName name) (derives_arguments has)
      (derives_directives hds) (derives_setOption o level hset)

theorem derives_inlineFragment (o : PrintOptions) (level : Nat) :
    ∀ {f : InlineFragment}, f.Valid →
      InlineFragmentPhrase (tokensOf (f.pieces o level)) f.fitted
  | ⟨condition, _, _⟩, ⟨_, hds, hset⟩ => by
    simp only [InlineFragment.pieces, List.cons_append, tokensOf_token, tokensOf_append,
      tokensOf_space, List.append_assoc]
    exact .fragment (derives_condition condition) (derives_directives hds)
      (derives_selectionSet o level hset)

theorem derives_selectionSet (o : PrintOptions) (level : Nat) :
    ∀ {s : SelectionSet}, s.Valid → SelectionSetPhrase (tokensOf (s.pieces o level)) s.fitted
  | ⟨[]⟩, h => absurd rfl h.1
  | ⟨s :: ss⟩, h => by
    simp only [SelectionSet.pieces, List.cons_append, tokensOf_token, tokensOf_append,
      tokensOf_line]
    exact .set (derives_selections o (level + 1) h.2) (by simp [Selection.fittedList])

theorem derives_setOption (o : PrintOptions) (level : Nat) :
    ∀ {set : Option SelectionSet}, SelectionSet.ValidOption set →
      Opt SelectionSetPhrase (tokensOf (SelectionSet.piecesOption o level set))
        (SelectionSet.fittedOption set)
  | none, _ => .none
  | some ⟨[]⟩, h => absurd rfl h.1
  | some ⟨_ :: _⟩, h => .some (derives_selectionSet o level h)

theorem derives_selections (o : PrintOptions) (level : Nat) :
    ∀ {ss : List Selection}, Selection.ValidList ss →
      Many SelectionPhrase (tokensOf (Selection.piecesList o level ss)) (Selection.fittedList ss)
  | [], _ => .nil
  | _ :: _, h => by
    simp only [Selection.piecesList, List.cons_append, tokensOf_line, tokensOf_append]
    exact .cons (derives_selection o level h.1) (derives_selections o level h.2)

end

/-! ## Definitions and documents -/

theorem derives_default {value : Option Value} (h : ∀ v ∈ value, v.Valid) :
    Opt DefaultPhrase (tokensOf (VariableDefinition.defaultPieces value))
      (value.map (·.fitted)) := by
  cases value with
  | none => exact .none
  | some v => exact .some (.equals (derives_value (h v rfl)))

theorem derives_variableDefinition {v : VariableDefinition} (h : v.Valid) :
    VariableDefinitionPhrase (tokensOf v.pieces) v.fitted := by
  obtain ⟨-, ht, hd, hds⟩ := h
  simp only [VariableDefinition.pieces, tokensOf_append, tokensOf_token, tokensOf_space,
    List.append_assoc, List.cons_append]
  exact .definition (derives_variable _) (derives_typeRef ht) (derives_default hd)
    (derives_directives hds)

theorem derives_variables {o : OperationDefinition} (h : ∀ v ∈ o.variableDefinitions, v.Valid) :
    Group VariableDefinitionPhrase (tokensOf o.variablePieces)
      (o.variableDefinitions.map (·.fitted)) := by
  rw [OperationDefinition.variablePieces]
  split
  · rename_i hempty
    rw [List.isEmpty_iff.mp hempty]
    exact .none
  · rename_i hempty
    have hspace : tokensOf (if o.name.isNone = true then [.space] else []) = [] := by
      split <;> rfl
    simp only [List.append_assoc, List.cons_append, tokensOf_append, hspace, tokensOf_token,
      List.nil_append]
    exact .some (many_joined fun v hv => derives_variableDefinition (h v hv))
      (by simpa using hempty)

theorem derives_operationName (name : Option Name) :
    Opt NamePhrase (tokensOf (OperationDefinition.namePieces name)) name := by
  cases name with
  | none => exact .none
  | some n => exact .some (.name n.text)

/-- An operation is derived where more is printed than its selection set. -/
theorem derives_operation (options : PrintOptions) (level : Nat) {o : OperationDefinition}
    (h : o.Valid) (hs : o.isShorthand = false) :
    OperationDefinitionPhrase (tokensOf (o.pieces options level)) o.fitted := by
  obtain ⟨-, hvs, hds, hset⟩ := h
  rw [OperationDefinition.pieces, hs, if_neg Bool.false_ne_true, OperationDefinition.headPieces]
  simp only [List.cons_append, List.append_assoc, tokensOf_name, tokensOf_append, tokensOf_space,
    List.nil_append]
  exact .definition (.keyword o.operation) (derives_operationName o.name) (derives_variables hvs)
    (derives_directives hds) (derives_selectionSet options level hset)

/-- Of an operation that says no more than its selection set only that is printed. -/
theorem derives_shorthand (options : PrintOptions) (level : Nat) {o : OperationDefinition}
    (h : o.Valid) (hs : o.isShorthand = true) :
    SelectionSetPhrase (tokensOf (o.pieces options level)) o.selectionSet.fitted := by
  rw [OperationDefinition.pieces, if_pos hs]
  exact derives_selectionSet options level h.2.2.2

theorem fitted_shorthand {o : OperationDefinition} (hs : o.isShorthand = true) :
    o.fitted = .ofSelectionSet o.selectionSet.fitted := by
  obtain ⟨operation, name, declared, directives, set⟩ := o
  simp only [OperationDefinition.isShorthand, Bool.and_eq_true, beq_iff_eq,
    Option.isNone_iff_eq_none, List.isEmpty_iff] at hs
  obtain ⟨⟨⟨rfl, rfl⟩, rfl⟩, rfl⟩ := hs
  rfl

theorem derives_fragmentDefinition (o : PrintOptions) (level : Nat) {f : FragmentDefinition}
    (h : f.Valid) : FragmentDefinitionPhrase (tokensOf (f.pieces o level)) f.fitted := by
  obtain ⟨-, hon, -, hds, hset⟩ := h
  simp only [FragmentDefinition.pieces, List.cons_append, List.append_assoc, tokensOf_name,
    tokensOf_space, tokensOf_append]
  exact .definition hon (.on (derives_namedType _)) (derives_directives hds)
    (derives_selectionSet o level hset)

/-- Whether a definition is printed as its selection set alone. -/
def Definition.isShorthand : Definition → Bool
  | .operation o => o.isShorthand
  | .fragment _ => false

theorem derives_definition (o : PrintOptions) (level : Nat) {d : Definition} (h : d.Valid)
    (hs : d.isShorthand = false) : DefinitionPhrase (tokensOf (d.pieces o level)) d.fitted := by
  cases d with
  | operation d => exact .operation (derives_operation o level h hs)
  | fragment f => exact .fragment (derives_fragmentDefinition o level h)

theorem tokensOf_definitions (o : PrintOptions) (level : Nat) (ds : List Definition) :
    tokensOf (Document.definitionPieces o level ds) =
      ds.flatMap fun d => tokensOf (d.pieces o level) := by
  match ds with
  | [] => rfl
  | [d] => simp [Document.definitionPieces]
  | d :: e :: ds =>
    simp only [Document.definitionPieces, tokensOf_append, tokensOf_line, List.flatMap_cons]
    rw [tokensOf_definitions o level (e :: ds), List.flatMap_cons]

theorem tokensOf_document (o : PrintOptions) (level : Nat) (d : Document) :
    tokensOf (d.pieces o level) = d.definitions.flatMap fun x => tokensOf (x.pieces o level) := by
  rw [Document.pieces, tokensOf_append, tokensOf_definitions, tokensOf_line, tokensOf_nil,
    List.append_nil]

/-- Definitions none of which is printed as a selection set alone. -/
theorem derives_definitions (o : PrintOptions) (level : Nat) {ds : List Definition}
    (h : ∀ d ∈ ds, d.Valid) (hs : ∀ d ∈ ds, d.isShorthand = false) :
    Many DefinitionPhrase (ds.flatMap fun d => tokensOf (d.pieces o level))
      (ds.map (·.fitted)) :=
  many_flatMap fun d hd => derives_definition o level (h d hd) (hs d hd)

/-- A document is derived where a selection set stands alone or not at all. -/
theorem derives_document (o : PrintOptions) (level : Nat) {d : Document} (h : d.Valid)
    (hs : d.definitions.length = 1 ∨ ∀ x ∈ d.definitions, x.isShorthand = false) :
    DocumentPhrase (tokensOf (d.pieces o level)) d.fitted := by
  by_cases hall : ∀ x ∈ d.definitions, x.isShorthand = false
  · rw [tokensOf_document]
    exact .definitions (derives_definitions o level h.2 hall) (by simpa using h.1)
  · have hone := hs.resolve_right hall
    obtain ⟨ds⟩ := d
    match ds with
    | [.operation d] =>
      have hshort : d.isShorthand = true := by
        simpa [Definition.isShorthand] using hall
      have hvalid : d.Valid := h.2 (.operation d) (by simp)
      rw [tokensOf_document]
      simp only [List.flatMap_cons, List.flatMap_nil, List.append_nil]
      simp only [Document.fitted, List.map_cons, List.map_nil, Definition.fitted,
        fitted_shorthand hshort]
      exact .shorthand (derives_shorthand o level hvalid hshort)
    | [.fragment f] => simp [Definition.isShorthand] at hall

end QueryDoc
