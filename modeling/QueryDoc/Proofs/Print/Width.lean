import QueryDoc.Proofs.Print.Reparse

/-! The width says where lines end and nothing else. A printed node has the same terminals
for every width and every indentation, so whatever it is read as, it is read as the same
with every other layout, and what cannot be read with one layout cannot be read with any. -/
namespace QueryDoc

/-! ## Terminals of every layout -/

section Layouts
variable (o o' : PrintOptions)

mutual

theorem tokensOf_selection (level level' : Nat) : ∀ s : Selection,
    tokensOf (s.pieces o level) = tokensOf (s.pieces o' level')
  | .field f => tokensOf_field level level' f
  | .fragmentSpread _ => rfl
  | .inlineFragment f => tokensOf_inlineFragment level level' f

theorem tokensOf_field (level level' : Nat) : ∀ f : Field,
    tokensOf (f.pieces o level) = tokensOf (f.pieces o' level')
  | ⟨_, _, _, _, set⟩ => by
    have hset := tokensOf_setOption level level' set
    simp only [Field.pieces, tokensOf_append, tokensOf_fieldHead, hset]

theorem tokensOf_inlineFragment (level level' : Nat) : ∀ f : InlineFragment,
    tokensOf (f.pieces o level) = tokensOf (f.pieces o' level')
  | ⟨_, _, set⟩ => by
    have hset := tokensOf_selectionSet level level' set
    simp only [InlineFragment.pieces, List.cons_append, tokensOf_token, tokensOf_append,
      tokensOf_space, hset]

theorem tokensOf_selectionSet (level level' : Nat) : ∀ s : SelectionSet,
    tokensOf (s.pieces o level) = tokensOf (s.pieces o' level')
  | ⟨[]⟩ => rfl
  | ⟨s :: ss⟩ => by
    have hlist := tokensOf_selections (level + 1) (level' + 1) (s :: ss)
    simp only [SelectionSet.pieces, List.cons_append, tokensOf_token, tokensOf_append,
      tokensOf_line, hlist]

theorem tokensOf_setOption (level level' : Nat) : ∀ set : Option SelectionSet,
    tokensOf (SelectionSet.piecesOption o level set) =
      tokensOf (SelectionSet.piecesOption o' level' set)
  | none => rfl
  | some s => by
    rw [SelectionSet.piecesOption, SelectionSet.piecesOption]
    split
    · rfl
    · exact tokensOf_selectionSet level level' s

theorem tokensOf_selections (level level' : Nat) : ∀ ss : List Selection,
    tokensOf (Selection.piecesList o level ss) = tokensOf (Selection.piecesList o' level' ss)
  | [] => rfl
  | s :: ss => by
    have hfirst := tokensOf_selection level level' s
    have hothers := tokensOf_selections level level' ss
    simp only [Selection.piecesList, List.cons_append, tokensOf_line, tokensOf_append, hfirst,
      hothers]

end

theorem tokensOf_operation (level level' : Nat) (d : OperationDefinition) :
    tokensOf (d.pieces o level) = tokensOf (d.pieces o' level') := by
  have hset := tokensOf_selectionSet o o' level level' d.selectionSet
  rw [OperationDefinition.pieces, OperationDefinition.pieces]
  split
  · exact hset
  · rw [tokensOf_append, tokensOf_append, hset]

theorem tokensOf_fragmentDefinition (level level' : Nat) (f : FragmentDefinition) :
    tokensOf (f.pieces o level) = tokensOf (f.pieces o' level') := by
  have hset := tokensOf_selectionSet o o' level level' f.selectionSet
  simp only [FragmentDefinition.pieces, List.cons_append, tokensOf_name, tokensOf_space,
    tokensOf_append, hset]

theorem tokensOf_definition (level level' : Nat) (d : Definition) :
    tokensOf (d.pieces o level) = tokensOf (d.pieces o' level') := by
  cases d with
  | operation d => exact tokensOf_operation o o' level level' d
  | fragment f => exact tokensOf_fragmentDefinition o o' level level' f

/-- The terminals of a node do not depend on how it is laid out. -/
theorem tokensOf_node (level level' : Nat) (n : Node) :
    tokensOf (n.pieces o level) = tokensOf (n.pieces o' level') := by
  match n with
  | .document d =>
    have heach := funext (tokensOf_definition o o' level level')
    simp only [Node.pieces, tokensOf_document, heach]
  | .operationDefinition d => exact tokensOf_operation o o' level level' d
  | .fragmentDefinition f => exact tokensOf_fragmentDefinition o o' level level' f
  | .selectionSet s => exact tokensOf_selectionSet o o' level level' s
  | .field f => exact tokensOf_field o o' level level' f
  | .inlineFragment f => exact tokensOf_inlineFragment o o' level level' f
  -- The others are written on one line whatever the options say.
  | .variableDefinition _ | .fragmentSpread _ | .argument _ | .directive _ | .variable _
  | .name _ | .namedType _ | .typeRef _ | .value _ | .objectField _ => rfl

end Layouts

/-! ## Reading every layout -/

/-- Line wrapping never changes what is read: a valid node that is printed with a width is
read as the same, by every entry, as the node that is printed without one. -/
theorem parse_printWith (e : Entry) {n : Node} (hv : n.Valid) (o : PrintOptions) (m : Node) :
    e.parse (n.printWith o) = .ok m ↔ e.parse n.print = .ok m := by
  have hwith : e.parse (n.printWith o) = .ok m ↔ e.phrase (tokensOf (n.pieces o 0)) m :=
    parse_printAt o 0 hv
  have hwithout : e.parse n.print = .ok m ↔ e.phrase (tokensOf (n.pieces .default 0)) m :=
    parse_printAt .default 0 hv
  rw [hwith, hwithout, tokensOf_node o .default 0 0 n]

/-- A field with an argument that is a list. -/
def listField : Node :=
  .field ⟨none, ⟨"a"⟩, [⟨⟨"b"⟩, .list [.int "1", .variable ⟨⟨"c"⟩⟩]⟩, ⟨⟨"d"⟩, .null⟩], [], none⟩

/-- With a width of 3 the arguments of the field have lines of their own. -/
theorem parse_printWith_narrow :
    listField.Valid ∧ listField.print = "a(b: [1, $c], d: null)" ∧
      listField.printWith ⟨some 3⟩ = "a(\n  b: [1, $c]\n  d: null\n)" ∧
      Entry.field.parse (listField.printWith ⟨some 3⟩) = .ok listField := by
  have hdigits : Numeral.Digits ['1'] := by
    refine ⟨nofun, fun c hc => ?_⟩
    rw [List.mem_singleton.mp hc]
    rfl
  have hnumber : Numeral.IsNumber ['1'] :=
    @Numeral.IsNumber.number [] ['1'] [] [] .none hdigits .none .none
  have hv : listField.Valid := by
    refine ⟨nofun, rfl, ?_, nofun, trivial⟩
    intro a ha
    rcases List.mem_cons.mp ha with rfl | ha
    · exact ⟨rfl, ⟨hnumber, rfl⟩, rfl, trivial⟩
    · rw [List.mem_singleton.mp ha]
      exact ⟨rfl, trivial⟩
  have hlong : ¬ Entry.field.TooShort listField := by
    rintro (⟨he | he, -⟩ | ⟨he, -⟩) <;> cases he
  have hread : Entry.field.parse listField.print = .ok listField :=
    parse_printAt_of_long .default 0 hv ⟨_, rfl⟩ hlong
  exact ⟨hv, by decide +kernel, by decide +kernel,
    (parse_printWith .field hv ⟨some 3⟩ listField).mpr hread⟩

end QueryDoc
