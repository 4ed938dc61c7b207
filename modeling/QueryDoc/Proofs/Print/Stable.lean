import QueryDoc.Proofs.Grammar.Wellformed
import QueryDoc.Proofs.Print.Reparse

/-! Printing what was read from a print. A node is read back with its blocks fitted, and a
string is printed as a block just where it is a fitted one, so that the text stays the same:
for each kind of node, the pieces that it is printed as are those of the fitted node, lines
included. -/
namespace QueryDoc
open IsNode

/-! ## Values -/

theorem stringToken_fits (content : String) (block : Bool) :
    stringToken content (block && Quoted.fitsBlock content.toList) =
      stringToken content block := by
  rw [stringToken, stringToken, Bool.and_assoc, Bool.and_self]

mutual

@[simp] theorem Value.pieces_fitted : ∀ v : Value, v.fitted.pieces = v.pieces
  | .string content block => by
    rw [Value.fitted_string, Value.pieces, Value.pieces, stringToken_fits]
  | .list vs => by
    simp only [Value.fitted, Value.pieces, Value.piecesList_fitted vs]
  | .object fs => by
    simp only [Value.fitted, Value.pieces, Value.piecesFields_fitted fs]
  | .null | .boolean _ | .int _ | .float _ | .enum _ | .variable _ => rfl

theorem Value.piecesList_fitted : ∀ vs : List Value,
    Value.piecesList (Value.fittedList vs) = Value.piecesList vs
  | [] => rfl
  | v :: vs => by
    simp only [Value.fittedList, Value.piecesList, Value.pieces_fitted v,
      Value.piecesList_fitted vs]

theorem Value.piecesFields_fitted : ∀ fs : List ObjectField,
    Value.piecesFields (Value.fittedFields fs) = Value.piecesFields fs
  | [] => rfl
  | ⟨_, v⟩ :: fs => by
    simp only [Value.fittedFields, Value.piecesFields, Value.pieces_fitted v,
      Value.piecesFields_fitted fs]

end

@[simp] theorem ObjectField.pieces_fitted (f : ObjectField) : f.fitted.pieces = f.pieces := by
  simp [ObjectField.fitted, ObjectField.pieces]

/-! ## Arguments and directives -/

@[simp] theorem Argument.pieces_fitted (a : Argument) : a.fitted.pieces = a.pieces := by
  simp [Argument.fitted, Argument.pieces]

@[simp] theorem argumentPieces_fitted (as : List Argument) :
    argumentPieces (as.map (·.fitted)) = argumentPieces as := by
  simp [argumentPieces, Function.comp_def]

@[simp] theorem foldedArgumentPieces_fitted (level : Nat) (as : List Argument) :
    foldedArgumentPieces level (as.map (·.fitted)) = foldedArgumentPieces level as := by
  simp [foldedArgumentPieces, List.flatMap_map]

/-- A field's head is as long as before, so its arguments are folded as before. -/
@[simp] theorem fieldHeadPieces_fitted (o : PrintOptions) (level : Nat) (aliasName : Option Name)
    (name : Name) (as : List Argument) :
    fieldHeadPieces o level aliasName name (as.map (·.fitted)) =
      fieldHeadPieces o level aliasName name as := by
  simp [fieldHeadPieces]

@[simp] theorem Directive.pieces_fitted (d : Directive) : d.fitted.pieces = d.pieces := by
  simp [Directive.fitted, Directive.pieces]

@[simp] theorem directivePieces_fitted (ds : List Directive) :
    directivePieces (ds.map (·.fitted)) = directivePieces ds := by
  simp [directivePieces, List.flatMap_map]

/-! ## Selections -/

@[simp] theorem FragmentSpread.pieces_fitted (s : FragmentSpread) :
    s.fitted.pieces = s.pieces := by
  simp [FragmentSpread.fitted, FragmentSpread.pieces]

section Layouts
variable (o : PrintOptions)

mutual

theorem Selection.pieces_fitted (level : Nat) : ∀ s : Selection,
    s.fitted.pieces o level = s.pieces o level
  | .field f => Field.pieces_fitted level f
  | .fragmentSpread s => FragmentSpread.pieces_fitted s
  | .inlineFragment f => InlineFragment.pieces_fitted level f

theorem Field.pieces_fitted (level : Nat) : ∀ f : Field,
    f.fitted.pieces o level = f.pieces o level
  | ⟨_, _, _, _, set⟩ => by
    have hset := SelectionSet.piecesOption_fitted level set
    simp only [Field.fitted, Field.pieces, fieldHeadPieces_fitted, directivePieces_fitted, hset]

theorem InlineFragment.pieces_fitted (level : Nat) : ∀ f : InlineFragment,
    f.fitted.pieces o level = f.pieces o level
  | ⟨_, _, set⟩ => by
    have hset := SelectionSet.pieces_fitted level set
    simp only [InlineFragment.fitted, InlineFragment.pieces, directivePieces_fitted, hset]

theorem SelectionSet.pieces_fitted (level : Nat) : ∀ s : SelectionSet,
    s.fitted.pieces o level = s.pieces o level
  | ⟨[]⟩ => rfl
  | ⟨s :: ss⟩ => by
    have hlist := Selection.piecesList_fitted (level + 1) (s :: ss)
    simp only [Selection.fittedList] at hlist
    simp only [SelectionSet.fitted, Selection.fittedList, SelectionSet.pieces, hlist]

theorem SelectionSet.piecesOption_fitted (level : Nat) : ∀ set : Option SelectionSet,
    SelectionSet.piecesOption o level (SelectionSet.fittedOption set) =
      SelectionSet.piecesOption o level set
  | none => rfl
  | some ⟨[]⟩ => rfl
  | some ⟨s :: ss⟩ => by
    have hset := SelectionSet.pieces_fitted level ⟨s :: ss⟩
    simp only [SelectionSet.fittedOption, SelectionSet.piecesOption, hset]
    rfl

theorem Selection.piecesList_fitted (level : Nat) : ∀ ss : List Selection,
    Selection.piecesList o level (Selection.fittedList ss) = Selection.piecesList o level ss
  | [] => rfl
  | s :: ss => by
    have hfirst := Selection.pieces_fitted level s
    have hothers := Selection.piecesList_fitted level ss
    simp only [Selection.fittedList, Selection.piecesList, hfirst, hothers]

end

/-! ## Definitions and documents -/

@[simp] theorem VariableDefinition.pieces_fitted (v : VariableDefinition) :
    v.fitted.pieces = v.pieces := by
  obtain ⟨_, _, defaultValue, _⟩ := v
  cases defaultValue <;>
    simp [VariableDefinition.fitted, VariableDefinition.pieces, VariableDefinition.defaultPieces]

@[simp] theorem OperationDefinition.isShorthand_fitted (d : OperationDefinition) :
    d.fitted.isShorthand = d.isShorthand := by
  simp [OperationDefinition.fitted, OperationDefinition.isShorthand]

theorem OperationDefinition.pieces_fitted (level : Nat) (d : OperationDefinition) :
    d.fitted.pieces o level = d.pieces o level := by
  have hset := SelectionSet.pieces_fitted o level d.selectionSet
  have hhead : d.fitted.headPieces = d.headPieces := by
    simp [OperationDefinition.fitted, OperationDefinition.headPieces,
      OperationDefinition.variablePieces, Function.comp_def]
  rw [OperationDefinition.pieces, OperationDefinition.pieces, d.isShorthand_fitted, hhead]
  simp only [OperationDefinition.fitted, hset]

theorem FragmentDefinition.pieces_fitted (level : Nat) (f : FragmentDefinition) :
    f.fitted.pieces o level = f.pieces o level := by
  have hset := SelectionSet.pieces_fitted o level f.selectionSet
  simp only [FragmentDefinition.fitted, FragmentDefinition.pieces, directivePieces_fitted, hset]

theorem Definition.pieces_fitted (level : Nat) (d : Definition) :
    d.fitted.pieces o level = d.pieces o level := by
  cases d with
  | operation d => exact d.pieces_fitted o level
  | fragment f => exact f.pieces_fitted o level

theorem Document.definitionPieces_fitted (level : Nat) (ds : List Definition) :
    Document.definitionPieces o level (ds.map (·.fitted)) =
      Document.definitionPieces o level ds := by
  match ds with
  | [] => rfl
  | [d] => exact d.pieces_fitted o level
  | d :: e :: ds =>
    have hothers := Document.definitionPieces_fitted level (e :: ds)
    simp only [List.map_cons] at hothers ⊢
    simp only [Document.definitionPieces, d.pieces_fitted o level, hothers]

/-- A node with its blocks fitted is printed as the node itself, whatever the layout. -/
theorem Node.pieces_fitted (level : Nat) (n : Node) :
    n.fitted.pieces o level = n.pieces o level := by
  match n with
  | .document d =>
    simp only [Node.fitted, Node.pieces, Document.fitted, Document.pieces,
      Document.definitionPieces_fitted]
  | .operationDefinition d => exact d.pieces_fitted o level
  | .fragmentDefinition f => exact f.pieces_fitted o level
  | .variableDefinition v => exact v.pieces_fitted
  | .selectionSet s => exact s.pieces_fitted o level
  | .field f => exact f.pieces_fitted o level
  | .fragmentSpread s => exact s.pieces_fitted
  | .inlineFragment f => exact f.pieces_fitted o level
  | .argument a => exact a.pieces_fitted
  | .directive d => exact d.pieces_fitted
  | .value v => exact v.pieces_fitted
  | .objectField f => exact f.pieces_fitted
  | .variable _ | .name _ | .namedType _ | .typeRef _ => rfl

theorem Node.printAt_fitted (level : Nat) (n : Node) :
    n.plain.fitted.printAt o level = n.printAt o level := by
  rw [Node.printAt, Node.printAt, Node.pieces_fitted, pieces_plain]

end Layouts

/-! ## Reading and printing again -/

/-- What was read as a construct is a node that the construct is for. -/
theorem Entry.admits_of_phrase {e : Entry} {ts : List Token} {n : Node} (h : e.phrase ts n) :
    e.Admits n := by
  have hvalue (v : Value) : toNode v = (toNode v).plain := by cases v <;> rfl
  match e with
  | .document | .operationDefinition | .fragmentDefinition | .variableDefinition | .namedType
  | .selectionSet | .field | .fragmentSpread | .inlineFragment | .directive | .argument | .name
  | .variable | .objectField =>
    obtain ⟨a, -, rfl⟩ := h
    exact ⟨a, rfl⟩
  | .definition | .selection | .typeRef =>
    obtain ⟨a, -, rfl⟩ := h
    exact ⟨a, by cases a <;> rfl⟩
  | .value =>
    obtain ⟨v, -, rfl⟩ := h
    exact ⟨v, hvalue v⟩
  | .booleanValue | .intValue | .floatValue | .stringValue | .enumValue | .listValue
  | .objectValue =>
    obtain ⟨v, ⟨hkind, -⟩, rfl⟩ := h
    exact ⟨v, hkind, hvalue v⟩

/-- Printing is idempotent: what is read from the print of a node that was read is printed as
the same text, with every width. -/
theorem print_of_reparse {e : Entry} {source : String} {n m : Node} {o : PrintOptions}
    (hn : e.parse source = .ok n) (hm : e.parse (n.printWith o) = .ok m) :
    m.printWith o = n.printWith o := by
  have hvalid : n.Valid := Entry.valid_of_parse hn
  have hadmits : e.Admits n := Entry.admits_of_phrase (Entry.parse_iff_phrase.mp hn)
  have hlong : ¬ e.TooShort n := by
    intro hshort
    obtain ⟨failure, hfailure⟩ := parse_printAt_of_tooShort o 0 hvalid hshort
    cases hfailure.symm.trans hm
  have hread : e.parse (n.printWith o) = .ok n.plain.fitted :=
    parse_printAt_of_long o 0 hvalid hadmits hlong
  obtain rfl : n.plain.fitted = m := Except.ok.inj (hread.symm.trans hm)
  exact n.printAt_fitted o 0

/-- A field with a string that ends in quotes and a list. -/
def quotedField (block : Bool) : Node :=
  .field ⟨none, ⟨"a"⟩, [⟨⟨"b"⟩, .string "x\"\"\"" block⟩, ⟨⟨"c"⟩, .list [.int "1"]⟩], [], none⟩

/-- The block is read back as a string on one line, and printed as that again. -/
theorem print_of_reparse_folded :
    Entry.field.parse "a(b: \"\"\"x\\\"\"\"\"\"\" c: [1])" = .ok (quotedField true) ∧
      Entry.field.parse ((quotedField true).printWith ⟨some 3⟩) = .ok (quotedField false) ∧
      (quotedField false).printWith ⟨some 3⟩ = (quotedField true).printWith ⟨some 3⟩ :=
  have hn : Entry.field.parse "a(b: \"\"\"x\\\"\"\"\"\"\" c: [1])" = .ok (quotedField true) :=
    ok_of_toOption (by decide +kernel)
  have hm : Entry.field.parse ((quotedField true).printWith ⟨some 3⟩) = .ok (quotedField false) :=
    ok_of_toOption (by decide +kernel)
  ⟨hn, hm, print_of_reparse hn hm⟩

end QueryDoc
