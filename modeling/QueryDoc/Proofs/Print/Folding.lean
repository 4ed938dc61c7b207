import QueryDoc.Print.Node
import QueryDoc.Proofs.Lexical.Munch
import QueryDoc.Proofs.Text.Lines
import QueryDoc.Proofs.Tree.Valid

/-! Where the arguments of a field are folded. Both layouts of a field are written out here as
texts, apart from the pieces of the printer: with all arguments on the line of the field, and
with each of them on a line of its own. A printed field starts with one of them and never with
the other, and which one it is depends on the size of the first one alone, counted in UTF-8. -/
namespace QueryDoc

/-! ## The two layouts -/

/-- The start of a line that is indented by some steps. -/
def newLine (level : Nat) : List Char := '\n' :: List.replicate (2 * level) ' '

/-- The text of an argument. -/
def Argument.text (a : Argument) : List Char :=
  a.name.text.toList ++ ':' :: ' ' :: (Node.value a.value).print.toList

namespace Field

/-- The text of a field's alias and name. -/
def label (f : Field) : List Char :=
  match f.aliasName with
  | some a => a.text.toList ++ ':' :: ' ' :: f.name.text.toList
  | none => f.name.text.toList

/-- Arguments in parentheses with commas between them, or nothing where there are none. -/
def inlineArguments (f : Field) : List Char :=
  if f.arguments = [] then []
  else '(' :: ([',', ' '].intercalate (f.arguments.map (·.text)) ++ [')'])

/-- Arguments in parentheses, each on a line of its own that is indented by one step more than
the field. -/
def foldedArguments (f : Field) (level : Nat) : List Char :=
  '(' :: (f.arguments.flatMap (fun a => newLine (level + 1) ++ a.text) ++ newLine level ++ [')'])

/-- A field's alias, name and arguments on one line. -/
def head (f : Field) : List Char := f.label ++ f.inlineArguments

/-- A field that is printed with its arguments on its own line. -/
def PrintsInline (f : Field) (o : PrintOptions) (level : Nat) : Prop :=
  f.head <+: ((Node.field f).printAt o level).toList

/-- A field that is printed with each argument on a line of its own. -/
def PrintsFolded (f : Field) (o : PrintOptions) (level : Nat) : Prop :=
  f.label ++ f.foldedArguments level <+: ((Node.field f).printAt o level).toList

end Field

/-! ## Printed texts -/

theorem render_cons (p : Piece) (ps : List Piece) : render (p :: ps) = p.chars ++ render ps :=
  List.flatMap_cons

theorem render_append (ps qs : List Piece) : render (ps ++ qs) = render ps ++ render qs :=
  List.flatMap_append

theorem render_joined (rows : List (List Piece)) :
    render (joinPieces rows) = [',', ' '].intercalate (rows.map render) := by
  match rows with
  | [] => rfl
  | [row] => simp [joinPieces]
  | row :: next :: rows =>
    have hrest := render_joined (next :: rows)
    simp only [joinPieces, render_append, render_cons, hrest, List.map_cons,
      List.intercalate_cons_cons, List.append_assoc]
    rfl

theorem render_argument (a : Argument) : render a.pieces = a.text := by
  rw [Argument.text, Node.print, Node.printWith, Node.printAt, String.toList_ofList]
  rfl

theorem render_arguments (as : List Argument) :
    (as.map (·.pieces)).map render = as.map (·.text) := by
  rw [List.map_map]
  exact List.map_congr_left fun a _ => render_argument a

/-- The text of an argument starts with its name. -/
theorem Argument.text_eq {a : Argument} (h : a.name.Valid) :
    ∃ c cs, a.text = c :: cs ∧ c ≠ '\n' := by
  rw [Argument.text]
  cases hname : a.name.text.toList with
  | nil => exact ⟨_, _, rfl, by decide⟩
  | cons c cs =>
    refine ⟨c, _, rfl, ?_⟩
    have hc := Lexer.all_isNameChar h c (by simp [hname])
    rintro rfl
    exact absurd hc (by decide)

/-- The text of parts that each start with a line. -/
theorem render_lines {α : Type} (level : Nat) (xs : List α) (f : α → List Piece) :
    render (xs.flatMap fun x => .line level :: f x) =
      xs.flatMap fun x => newLine level ++ render (f x) := by
  rw [render, List.flatMap_assoc]
  rfl

namespace Field

theorem render_label (f : Field) : render (fieldNamePieces f.aliasName f.name) = f.label := by
  rw [label]
  cases f.aliasName <;> simp [fieldNamePieces, render, Piece.chars, Piece.name, Token.chars]

theorem render_inlineArguments (f : Field) :
    render (argumentPieces f.arguments) = f.inlineArguments := by
  rw [argumentPieces, inlineArguments]
  by_cases h : f.arguments = []
  · rw [if_pos h, if_pos (List.isEmpty_iff.mpr h)]
    rfl
  · rw [if_neg h, if_neg (by simpa using h), List.cons_append, render_cons, render_append,
      render_joined, render_arguments]
    rfl

theorem render_foldedArguments (f : Field) (level : Nat) :
    render (foldedArgumentPieces level f.arguments) = f.foldedArguments level := by
  rw [foldedArgumentPieces, foldedArguments, List.cons_append, render_cons, render_append,
    render_lines]
  simp only [render_argument, List.append_assoc]
  rfl

/-- What is printed after the alias, the name and the arguments of a field. -/
def tail (f : Field) (o : PrintOptions) (level : Nat) : List Char :=
  render (directivePieces f.directives ++ SelectionSet.piecesOption o level f.selectionSet)

/-- Whether the arguments of a field are printed on lines of their own. -/
def Folds (f : Field) (width : Nat) : Prop := f.arguments ≠ [] ∧ width < utf8Length f.head

theorem render_head (f : Field) :
    render (fieldNamePieces f.aliasName f.name ++ argumentPieces f.arguments) = f.head := by
  rw [render_append, render_label, render_inlineArguments, head]

theorem folds_iff (f : Field) (width : Nat) :
    f.Folds width ↔ (exceeds (some width)
      (fieldNamePieces f.aliasName f.name ++ argumentPieces f.arguments) &&
        !f.arguments.isEmpty) = true := by
  rw [exceeds, render_head]
  simp [Folds, and_comm]

theorem toList_printAt (f : Field) (o : PrintOptions) (level : Nat) :
    ((Node.field f).printAt o level).toList =
      render (fieldHeadPieces o level f.aliasName f.name f.arguments) ++ f.tail o level := by
  obtain ⟨aliasName, name, arguments, directives, set⟩ := f
  rw [Node.printAt, String.toList_ofList, Node.pieces, Field.pieces, List.append_assoc,
    render_append, tail]

theorem printAt_folded {f : Field} {width : Nat} (h : f.Folds width) (level : Nat) :
    ((Node.field f).printAt ⟨some width⟩ level).toList =
      f.label ++ (f.foldedArguments level ++ f.tail ⟨some width⟩ level) := by
  rw [toList_printAt, fieldHeadPieces, if_pos ((folds_iff f width).mp h), render_append,
    render_label, render_foldedArguments, List.append_assoc]

theorem printAt_inline {f : Field} {width : Nat} (h : ¬ f.Folds width) (level : Nat) :
    ((Node.field f).printAt ⟨some width⟩ level).toList =
      f.label ++ (f.inlineArguments ++ f.tail ⟨some width⟩ level) := by
  rw [toList_printAt, fieldHeadPieces, if_neg (mt (folds_iff f width).mpr h), render_head, head,
    List.append_assoc]

/-! ## Telling the layouts apart -/

/-- Folded arguments start with a new line. -/
theorem foldedArguments_eq (f : Field) (level : Nat) :
    ∃ cs, f.foldedArguments level = '(' :: '\n' :: cs := by
  rw [foldedArguments]
  cases f.arguments with
  | nil => exact ⟨_, rfl⟩
  | cons a as => exact ⟨_, rfl⟩

/-- Arguments on one line start with the name of the first one. -/
theorem inlineArguments_eq {f : Field} (hne : f.arguments ≠ [])
    (hv : ∀ a ∈ f.arguments, a.name.Valid) :
    ∃ c cs, f.inlineArguments = '(' :: c :: cs ∧ c ≠ '\n' := by
  rw [inlineArguments, if_neg hne]
  cases harguments : f.arguments with
  | nil => exact absurd harguments hne
  | cons a as =>
    obtain ⟨c, cs, htext, hc⟩ := Argument.text_eq (hv a (by simp [harguments]))
    obtain ⟨more, hmore⟩ : ∃ more, [',', ' '].intercalate ((a :: as).map (·.text)) = c :: more := by
      rw [List.map_cons, htext]
      cases as with
      | nil => exact ⟨cs, List.intercalate_singleton ..⟩
      | cons b as => exact ⟨_, List.intercalate_cons_cons ..⟩
    exact ⟨c, more ++ [')'], by rw [hmore]; rfl, hc⟩

/-- The selection set of a field is printed after a space, if at all. -/
theorem setOption_eq (o : PrintOptions) (level : Nat) (set : Option SelectionSet) :
    SelectionSet.piecesOption o level set = [] ∨
      ∃ ps, SelectionSet.piecesOption o level set = .space :: ps := by
  cases set with
  | none => exact .inl rfl
  | some s =>
    rw [SelectionSet.piecesOption]
    split
    · exact .inl rfl
    · exact .inr ⟨_, rfl⟩

/-- What comes after the arguments, or after the name where there are none, is no parenthesis. -/
theorem tail_ne (f : Field) (o : PrintOptions) (level : Nat) (cs : List Char) :
    f.tail o level ≠ '(' :: cs := by
  rw [tail]
  cases f.directives with
  | nil =>
    rcases setOption_eq o level f.selectionSet with h | ⟨ps, h⟩ <;> rw [h] <;> rintro ⟨⟩
  | cons d ds => rintro ⟨⟩

/-- Arguments on one line are not folded ones, nor is what is printed where there are none. -/
theorem not_folded_prefix {f : Field} (hv : ∀ a ∈ f.arguments, a.name.Valid) (o : PrintOptions)
    (level : Nat) : ¬ f.foldedArguments level <+: f.inlineArguments ++ f.tail o level := by
  obtain ⟨folded, hfolded⟩ := f.foldedArguments_eq level
  rw [hfolded]
  rintro ⟨rest, heq⟩
  by_cases hne : f.arguments = []
  · rw [inlineArguments, if_pos hne] at heq
    exact f.tail_ne o level _ heq.symm
  · obtain ⟨c, cs, hinline, hc⟩ := inlineArguments_eq hne hv
    rw [hinline] at heq
    injection heq with _ heq
    injection heq with hnewline _
    exact hc hnewline.symm

theorem not_inline_prefix {f : Field} (hne : f.arguments ≠ [])
    (hv : ∀ a ∈ f.arguments, a.name.Valid) (o : PrintOptions) (level : Nat) :
    ¬ f.inlineArguments <+: f.foldedArguments level ++ f.tail o level := by
  obtain ⟨folded, hfolded⟩ := f.foldedArguments_eq level
  obtain ⟨c, cs, hinline, hc⟩ := inlineArguments_eq hne hv
  rw [hfolded, hinline]
  rintro ⟨rest, heq⟩
  injection heq with _ heq
  injection heq with hnewline _
  exact hc hnewline

theorem printsFolded_iff {f : Field} (hv : ∀ a ∈ f.arguments, a.name.Valid) (width level : Nat) :
    f.PrintsFolded ⟨some width⟩ level ↔ f.Folds width := by
  constructor
  · intro h
    refine Classical.byContradiction fun hfolds => ?_
    rw [PrintsFolded, printAt_inline hfolds, List.prefix_append_right_inj] at h
    exact not_folded_prefix hv _ level h
  · intro h
    rw [PrintsFolded, printAt_folded h, List.prefix_append_right_inj]
    exact List.prefix_append ..

theorem printsInline_iff {f : Field} (hv : ∀ a ∈ f.arguments, a.name.Valid) (width level : Nat) :
    f.PrintsInline ⟨some width⟩ level ↔ ¬ f.Folds width := by
  constructor
  · intro h hfolds
    rw [PrintsInline, printAt_folded hfolds, head, List.prefix_append_right_inj] at h
    exact not_inline_prefix hfolds.1 hv _ level h
  · intro h
    rw [PrintsInline, printAt_inline h, head, List.prefix_append_right_inj]
    exact List.prefix_append ..

end Field

/-! ## Characters and their size -/

theorem length_le_utf8Length (cs : List Char) : cs.length ≤ utf8Length cs := by
  induction cs with
  | nil => exact Nat.le_refl 0
  | cons c cs ih =>
    have := c.utf8Size_pos
    rw [utf8Length, List.length_cons]
    omega

/-- Characters of ASCII take up one byte each. -/
theorem utf8Length_ascii {cs : List Char} (h : ∀ c ∈ cs, c.toNat < 128) :
    utf8Length cs = cs.length := by
  induction cs with
  | nil => rfl
  | cons c cs ih =>
    obtain ⟨hc, hcs⟩ := List.forall_mem_cons.mp h
    have hsize : c.utf8Size = 1 := by
      rw [Char.utf8Size_eq_one_iff, UInt32.le_iff_toNat_le]
      exact Nat.le_of_lt_succ hc
    rw [utf8Length, hsize, ih hcs, List.length_cons, Nat.add_comm]

/-- The arguments of a field are folded just where there are any and its alias, name and
arguments on one line are larger than the width, in UTF-8; otherwise they stay on that line.
So what has more characters than the width is folded, and in ASCII nothing else is. -/
theorem Field.folded_iff {f : Field} (hv : ∀ a ∈ f.arguments, a.name.Valid) (width level : Nat) :
    (f.PrintsFolded ⟨some width⟩ level ↔ f.arguments ≠ [] ∧ width < utf8Length f.head) ∧
      (f.PrintsInline ⟨some width⟩ level ↔ ¬ (f.arguments ≠ [] ∧ width < utf8Length f.head)) ∧
      (f.arguments ≠ [] ∧ width < f.head.length → f.PrintsFolded ⟨some width⟩ level) ∧
      ((∀ c ∈ f.head, c.toNat < 128) → f.PrintsFolded ⟨some width⟩ level →
        f.arguments ≠ [] ∧ width < f.head.length) := by
  have hfolded := printsFolded_iff hv width level
  refine ⟨hfolded, printsInline_iff hv width level, fun hlong => ?_, fun hascii h => ?_⟩
  · exact hfolded.mpr ⟨hlong.1, Nat.lt_of_lt_of_le hlong.2 (length_le_utf8Length f.head)⟩
  · rw [← utf8Length_ascii hascii]
    exact hfolded.mp h

/-- A field with an alias and two arguments. -/
def pageField : Field :=
  ⟨some ⟨"x"⟩, ⟨"f"⟩, [⟨⟨"a"⟩, .null⟩, ⟨⟨"b"⟩, .string "c" false⟩], [], none⟩

/-- Its 21 characters stay on a line of that width and are folded in a narrower one. -/
theorem Field.folded_iff_page :
    (∀ a ∈ pageField.arguments, a.name.Valid) ∧ (∀ c ∈ pageField.head, c.toNat < 128) ∧
      pageField.head.length = 21 ∧ pageField.PrintsInline ⟨some 21⟩ 1 ∧
      pageField.PrintsFolded ⟨some 20⟩ 1 ∧ ¬ pageField.PrintsFolded ⟨some 21⟩ 1 := by
  have hv : ∀ a ∈ pageField.arguments, a.name.Valid := by
    intro a ha
    rcases List.mem_cons.mp ha with rfl | ha
    · rfl
    · rw [List.mem_singleton.mp ha]
      rfl
  have hascii : ∀ c ∈ pageField.head, c.toNat < 128 := by
    have hall : (pageField.head.all fun c => c.toNat < 128) = true := by decide +kernel
    exact fun c hc => of_decide_eq_true (List.all_eq_true.mp hall c hc)
  have hlength : pageField.head.length = 21 := by decide +kernel
  have hsize : utf8Length pageField.head = 21 := by rw [utf8Length_ascii hascii, hlength]
  have hne : pageField.arguments ≠ [] := by rintro ⟨⟩
  obtain ⟨-, hinline, -, hshort⟩ := folded_iff hv 21 1
  obtain ⟨-, -, hlong, -⟩ := folded_iff hv 20 1
  refine ⟨hv, hascii, hlength, ?_, hlong ⟨hne, by omega⟩, fun h => ?_⟩
  · exact hinline.mpr fun h => by omega
  · exact absurd (hshort hascii h).2 (by omega)

/-- A field whose only argument is an accented letter. -/
def accentedField : Field := ⟨none, ⟨"a"⟩, [⟨⟨"b"⟩, .string "é" false⟩], [], none⟩

/-- Its nine characters take up ten bytes, so they are folded though they fit into a width of
nine. -/
theorem Field.folded_early :
    accentedField.Valid ∧
      (Node.field accentedField).printWith ⟨some 9⟩ = "a(\n  b: \"é\"\n)" ∧
      ¬ (accentedField.PrintsFolded ⟨some 9⟩ 0 ↔
        accentedField.arguments ≠ [] ∧ 9 < accentedField.head.length) := by
  have hvalid : accentedField.Valid := by
    refine ⟨by rintro _ ⟨⟩, rfl, ?_, by simp, trivial⟩
    intro a ha
    rw [List.mem_singleton.mp ha]
    exact ⟨rfl, trivial⟩
  have hlength : accentedField.head.length = 9 := by decide +kernel
  have hfolded : accentedField.PrintsFolded ⟨some 9⟩ 0 := ⟨[], by decide +kernel⟩
  refine ⟨hvalid, by decide +kernel, fun h => ?_⟩
  have := (h.mp hfolded).2
  omega

end QueryDoc
