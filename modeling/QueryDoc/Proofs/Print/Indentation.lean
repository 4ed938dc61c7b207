import QueryDoc.Proofs.Lexical.Cut
import QueryDoc.Proofs.Lexical.Escape
import QueryDoc.Proofs.Print.Folding
import QueryDoc.Proofs.Tree.Inside

/-! The level at which a node is printed. It says how far the lines of the node are indented
and nothing else: the text at a level is the text at level zero with two spaces for each step
after every line feed. So a selection is printed in a selection set as it is printed alone,
moved to the right by the selection sets around it. Blocks are the only terminals that may
break a line, and their lines are not moved. -/
namespace QueryDoc

/-! ## Moved lines -/

/-- A text with as many steps of two spaces put after each line feed. -/
def indented (steps : Nat) (cs : List Char) : List Char :=
  cs.flatMap fun c => if c = '\n' then newLine steps else [c]

section Texts
variable (steps : Nat)

theorem indented_append (cs ds : List Char) :
    indented steps (cs ++ ds) = indented steps cs ++ indented steps ds :=
  List.flatMap_append

/-- A text without line feeds stays as it is. -/
theorem indented_of_notMem {cs : List Char} (h : '\n' ∉ cs) : indented steps cs = cs := by
  induction cs with
  | nil => rfl
  | cons c cs ih =>
    obtain ⟨hc, hcs⟩ := not_or.mp (mt List.mem_cons.mpr h)
    rw [indented, List.flatMap_cons, if_neg (Ne.symm hc), ← indented, ih hcs]
    rfl

/-- The start of a line is moved from one level to another. -/
theorem indented_newLine (level : Nat) :
    indented steps (newLine level) = newLine (level + steps) := by
  have hblanks : '\n' ∉ List.replicate (2 * level) ' ' := by
    intro h
    exact absurd (List.eq_of_mem_replicate h) (by decide)
  rw [newLine, indented, List.flatMap_cons, if_pos rfl, ← indented, indented_of_notMem _ hblanks,
    newLine, newLine, List.cons_append, List.replicate_append_replicate]
  congr 2
  omega

end Texts

/-! ## Terminals without line feeds -/

theorem notMem_newline_of_name {text : String} (h : Name.Valid ⟨text⟩) : '\n' ∉ text.toList := by
  intro hmem
  exact absurd (Lexer.all_isNameChar h '\n' hmem) (by decide)

theorem notMem_newline_of_number {text : String} (h : Numeral.IsNumber text.toList) :
    '\n' ∉ text.toList := by
  intro hmem
  exact absurd (Lexer.isFence_number h '\n' hmem) (by decide)

namespace Quoted

theorem SpellsDigit.ne_newline {d : Char} {n : Nat} (h : SpellsDigit d n) : d ≠ '\n' := by
  have hall : ∀ n < 16, n.digitChar ≠ '\n' ∧ n.digitChar.toUpper ≠ '\n' := by decide
  obtain ⟨hn, rfl | rfl⟩ := h
  · exact (hall n hn).1
  · exact (hall n hn).2

theorem SpellsUnit.notMem_newline {ds : List Char} {n : Nat} (h : SpellsUnit ds n) :
    '\n' ∉ ds := by
  obtain ⟨hx, hy, hz, hw⟩ := h
  simp [hx.ne_newline.symm, hy.ne_newline.symm, hz.ne_newline.symm, hw.ne_newline.symm]

/-- No spelling of a character on one line has a line feed, not even that of a line feed. -/
theorem SpellsChar.notMem_newline {word : List Char} {c : Char} (h : SpellsChar word c) :
    '\n' ∉ word := by
  cases h with
  | itself _ _ hn _ => simp [hn.symm]
  | short hletter =>
    have hall : ∀ p ∈ shortEscapes, p.1 ≠ '\n' := by decide
    simp [(hall _ hletter).symm]
  | unit hds => simp [hds.notMem_newline]
  | pair _ hhs hls => simp [hhs.notMem_newline, hls.notMem_newline]

theorem notMem_newline_encode (cs : List Char) : '\n' ∉ encode cs := by
  intro h
  obtain ⟨c, -, hc⟩ := List.mem_flatMap.mp h
  exact (spells_encodeChar c).notMem_newline hc

end Quoted

/-- A string that is no block is written on one line. -/
theorem notMem_newline_of_string (content : String) :
    '\n' ∉ (stringToken content false).chars := by
  simp [stringToken, Token.chars, Quoted.notMem_newline_encode]

/-! ## Forms that move with their level -/

/-- A printed form whose text at a level is its text at a lower one, moved by the steps between
them. -/
def Moves (form : Nat → List Piece) : Prop :=
  ∀ level steps, render (form (level + steps)) = indented steps (render (form level))

section Forms
variable {f g : Nat → List Piece} {ps : List Piece} {α : Type}

theorem moves_nil : Moves fun _ => [] := fun _ _ => rfl

theorem moves_append (hf : Moves f) (hg : Moves g) : Moves fun level => f level ++ g level := by
  intro level steps
  simp only [render_append, indented_append, hf level steps, hg level steps]

/-- A piece without line feeds is the same at each level. -/
theorem moves_flat {p : Piece} (hp : '\n' ∉ p.chars) (hf : Moves f) :
    Moves fun level => p :: f level := by
  intro level steps
  simp only [render_cons, indented_append, indented_of_notMem steps hp, hf level steps]

/-- A new line, indented by some steps more than the level. -/
theorem moves_line (more : Nat) (hf : Moves f) :
    Moves fun level => .line (level + more) :: f level := by
  intro level steps
  have hline : (Piece.line (level + steps + more)).chars =
      indented steps (Piece.line (level + more)).chars := by
    show newLine _ = indented steps (newLine _)
    rw [indented_newLine, Nat.add_right_comm]
  simp only [render_cons, indented_append, hline, hf level steps]

/-- What stands at a deeper level moves too. -/
theorem moves_deeper (hf : Moves f) : Moves fun level => f (level + 1) := by
  intro level steps
  have hdeeper := hf (level + 1) steps
  rwa [Nat.add_right_comm] at hdeeper

theorem moves_flatMap {form : α → Nat → List Piece} {xs : List α} (h : ∀ x ∈ xs, Moves (form x)) :
    Moves fun level => xs.flatMap fun x => form x level := by
  induction xs with
  | nil => exact moves_nil
  | cons x xs ih =>
    obtain ⟨hx, hxs⟩ := List.forall_mem_cons.mp h
    exact moves_append hx (ih hxs)

theorem moves_joined {rows : List (List Piece)} (h : ∀ row ∈ rows, Moves fun _ => row) :
    Moves fun _ => joinPieces rows := by
  match rows with
  | [] => exact moves_nil
  | [row] => exact h row (by simp)
  | row :: next :: rows =>
    have hrest : Moves fun _ => joinPieces (next :: rows) :=
      moves_joined fun r hr => h r (List.mem_cons_of_mem _ hr)
    exact moves_append (h row (by simp)) (moves_flat (by decide) hrest)

/-- Pieces between two terminals without line feeds. -/
theorem moves_between {l r : Token} (hl : '\n' ∉ l.chars) (hr : '\n' ∉ r.chars)
    (hf : Moves f) : Moves fun level => .token l :: f level ++ [.token r] :=
  moves_flat hl (moves_append hf (moves_flat hr moves_nil))

end Forms

/-! ## Parts of nodes -/

section Parts
variable {f : Nat → List Piece} {o : PrintOptions}

theorem moves_name {text : String} (h : Name.Valid ⟨text⟩) (hf : Moves f) :
    Moves fun level => .name text :: f level :=
  moves_flat (notMem_newline_of_name h) hf

theorem moves_arguments {as : List Argument} (h : ∀ a ∈ as, Moves fun _ => a.pieces) :
    Moves fun _ => argumentPieces as := by
  have hrows : ∀ row ∈ as.map (·.pieces), Moves fun _ => row := List.forall_mem_map.mpr h
  unfold argumentPieces
  split
  · exact moves_nil
  · exact moves_between (by decide) (by decide) (moves_joined hrows)

theorem moves_foldedArguments {as : List Argument} (h : ∀ a ∈ as, Moves fun _ => a.pieces) :
    Moves fun level => foldedArgumentPieces level as := by
  have hrows : Moves fun level => as.flatMap fun a => .line (level + 1) :: a.pieces :=
    moves_flatMap fun a ha => moves_line 1 (h a ha)
  exact moves_flat (by decide)
    (moves_append hrows (moves_line 0 (moves_flat (by decide) moves_nil)))

theorem moves_directives {ds : List Directive} (h : ∀ d ∈ ds, Moves fun _ => d.pieces) :
    Moves fun _ => directivePieces ds :=
  moves_flatMap fun d hd => moves_flat (by decide) (h d hd)

theorem moves_fieldName {aliasName : Option Name} {name : Name}
    (ha : ∀ n ∈ aliasName, Moves fun _ => n.pieces) (hn : Moves fun _ => name.pieces) :
    Moves fun _ => fieldNamePieces aliasName name := by
  cases aliasName with
  | none => exact hn
  | some a => exact moves_append (ha a rfl) (moves_flat (by decide) (moves_flat (by decide) hn))

/-- Whether the arguments are folded does not depend on the level. -/
theorem moves_fieldHead {aliasName : Option Name} {name : Name} {as : List Argument}
    (ha : ∀ n ∈ aliasName, Moves fun _ => n.pieces) (hn : Moves fun _ => name.pieces)
    (has : ∀ a ∈ as, Moves fun _ => a.pieces) :
    Moves fun level => fieldHeadPieces o level aliasName name as := by
  simp only [fieldHeadPieces]
  split
  · exact moves_append (moves_fieldName ha hn) (moves_foldedArguments has)
  · exact moves_append (moves_fieldName ha hn) (moves_arguments has)

theorem moves_condition {condition : Option NamedType}
    (h : ∀ t ∈ condition, Moves fun _ => t.pieces) : Moves fun _ => conditionPieces condition := by
  cases condition with
  | none => exact moves_nil
  | some t =>
    exact moves_flat (by decide) (moves_flat (by decide) (moves_flat (by decide) (h t rfl)))

/-- Selections, each on a line of its own. -/
theorem moves_selections {ss : List Selection} (h : ∀ s ∈ ss, Moves fun level => s.pieces o level) :
    Moves fun level => Selection.piecesList o level ss := by
  induction ss with
  | nil => exact moves_nil
  | cons s ss ih =>
    obtain ⟨hs, hss⟩ := List.forall_mem_cons.mp h
    exact moves_line 0 (moves_append hs (ih hss))

theorem moves_selectionSet {ss : List Selection}
    (h : ∀ s ∈ ss, Moves fun level => s.pieces o level) :
    Moves fun level => SelectionSet.pieces o level ⟨ss⟩ := by
  cases ss with
  | nil => exact moves_nil
  | cons s ss =>
    exact moves_flat (by decide) (moves_append (moves_deeper (moves_selections h))
      (moves_line 0 (moves_flat (by decide) moves_nil)))

theorem moves_setOption {set : Option SelectionSet}
    (h : ∀ s ∈ set, Moves fun level => s.pieces o level) :
    Moves fun level => SelectionSet.piecesOption o level set := by
  cases set with
  | none => exact moves_nil
  | some s =>
    simp only [SelectionSet.piecesOption]
    split
    · exact moves_nil
    · exact moves_flat (by decide) (h s rfl)

theorem moves_default {value : Option Value} (h : ∀ v ∈ value, Moves fun _ => v.pieces) :
    Moves fun _ => VariableDefinition.defaultPieces value := by
  cases value with
  | none => exact moves_nil
  | some v =>
    exact moves_flat (by decide) (moves_flat (by decide) (moves_flat (by decide) (h v rfl)))

theorem moves_operationName {name : Option Name} (h : ∀ n ∈ name, Moves fun _ => n.pieces) :
    Moves fun _ => OperationDefinition.namePieces name := by
  cases name with
  | none => exact moves_nil
  | some n => exact moves_flat (by decide) (h n rfl)

theorem moves_variables {d : OperationDefinition}
    (h : ∀ v ∈ d.variableDefinitions, Moves fun _ => v.pieces) : Moves fun _ => d.variablePieces := by
  have hrows : ∀ row ∈ d.variableDefinitions.map (·.pieces), Moves fun _ => row :=
    List.forall_mem_map.mpr h
  have hspace : Moves fun _ => if d.name.isNone then [.space] else [] := by
    split
    · exact moves_flat (by decide) moves_nil
    · exact moves_nil
  unfold OperationDefinition.variablePieces
  split
  · exact moves_nil
  · rw [List.append_assoc]
    exact moves_append hspace (moves_between (by decide) (by decide) (moves_joined hrows))

theorem moves_argument {a : Argument} (hn : Moves fun _ => a.name.pieces)
    (hv : Moves fun _ => a.value.pieces) : Moves fun _ => a.pieces :=
  moves_append hn (moves_flat (by decide) (moves_flat (by decide) hv))

theorem moves_objectField {x : ObjectField} (hn : Moves fun _ => x.name.pieces)
    (hv : Moves fun _ => x.value.pieces) : Moves fun _ => x.pieces :=
  moves_append hn (moves_flat (by decide) (moves_flat (by decide) hv))

theorem moves_values {vs : List Value} (h : ∀ v ∈ vs, Moves fun _ => v.pieces) :
    ∀ row ∈ Value.piecesList vs, Moves fun _ => row := by
  induction vs with
  | nil => exact List.forall_mem_nil _
  | cons v vs ih =>
    obtain ⟨hv, hvs⟩ := List.forall_mem_cons.mp h
    exact List.forall_mem_cons.mpr ⟨hv, ih hvs⟩

theorem moves_objectFields {fs : List ObjectField} (h : ∀ x ∈ fs, Moves fun _ => x.pieces) :
    ∀ row ∈ Value.piecesFields fs, Moves fun _ => row := by
  induction fs with
  | nil => exact List.forall_mem_nil _
  | cons x fs ih =>
    obtain ⟨label, v⟩ := x
    obtain ⟨hx, hfs⟩ := List.forall_mem_cons.mp h
    intro row hrow
    rcases List.mem_cons.mp hrow with rfl | hrow
    · exact hx
    · exact ih hfs row hrow

theorem moves_directive {d : Directive} (hn : Moves fun _ => d.name.pieces)
    (has : ∀ a ∈ d.arguments, Moves fun _ => a.pieces) : Moves fun _ => d.pieces :=
  moves_flat (by decide) (moves_append hn (moves_arguments has))

theorem moves_fragmentSpread {s : FragmentSpread} (hn : Moves fun _ => s.name.pieces)
    (hds : ∀ d ∈ s.directives, Moves fun _ => d.pieces) : Moves fun _ => s.pieces :=
  moves_flat (by decide) (moves_append hn (moves_directives hds))

theorem moves_inlineFragment {condition : Option NamedType} {ds : List Directive}
    {set : SelectionSet} (hc : ∀ t ∈ condition, Moves fun _ => t.pieces)
    (hds : ∀ d ∈ ds, Moves fun _ => d.pieces) (hset : Moves fun level => set.pieces o level) :
    Moves fun level => InlineFragment.pieces o level ⟨condition, ds, set⟩ :=
  moves_append (moves_flat (by decide) (moves_append (moves_condition hc) (moves_directives hds)))
    (moves_flat (by decide) hset)

theorem moves_variableDefinition {v : VariableDefinition}
    (hv : Moves fun _ => v.declared.pieces) (ht : Moves fun _ => v.type.pieces)
    (ho : ∀ d ∈ v.defaultValue, Moves fun _ => d.pieces)
    (hds : ∀ d ∈ v.directives, Moves fun _ => d.pieces) : Moves fun _ => v.pieces := by
  have htype : Moves fun _ => .token .colon :: .space :: v.type.pieces :=
    moves_flat (by decide) (moves_flat (by decide) ht)
  exact moves_append (moves_append (moves_append hv htype) (moves_default ho))
    (moves_directives hds)

theorem moves_operation {d : OperationDefinition} (hn : ∀ n ∈ d.name, Moves fun _ => n.pieces)
    (hvs : ∀ v ∈ d.variableDefinitions, Moves fun _ => v.pieces)
    (hds : ∀ x ∈ d.directives, Moves fun _ => x.pieces)
    (hset : Moves fun level => d.selectionSet.pieces o level) :
    Moves fun level => d.pieces o level := by
  have hword : '\n' ∉ (Piece.name d.operation.keyword).chars := by cases d.operation <;> decide
  have hhead : Moves fun _ => d.headPieces :=
    moves_append (moves_append (moves_append (moves_flat hword (moves_operationName hn))
      (moves_variables hvs)) (moves_directives hds)) (moves_flat (by decide) moves_nil)
  simp only [OperationDefinition.pieces]
  split
  · exact hset
  · exact moves_append hhead hset

theorem moves_fragmentDefinition {x : FragmentDefinition} (hn : Moves fun _ => x.name.pieces)
    (hc : Moves fun _ => x.typeCondition.pieces)
    (hds : ∀ d ∈ x.directives, Moves fun _ => d.pieces)
    (hset : Moves fun level => x.selectionSet.pieces o level) :
    Moves fun level => x.pieces o level := by
  have hname : Moves fun _ => [.name "fragment", .space, .name x.name.text, .space] :=
    moves_flat (by decide) (moves_flat (by decide)
      (moves_append hn (moves_flat (by decide) moves_nil)))
  have hcondition : Moves fun _ => .name "on" :: .space :: x.typeCondition.pieces :=
    moves_flat (by decide) (moves_flat (by decide) hc)
  exact moves_append (moves_append (moves_append hname hcondition) (moves_directives hds))
    (moves_flat (by decide) hset)

end Parts

/-! ## Nodes -/

namespace Node
open IsNode

/-- A node whose printed form moves with its level. A document is no such node: the lines between
its definitions are empty at each level. -/
def Movable (o : PrintOptions) : Node → Prop
  | .document _ => True
  | n => Moves fun level => n.pieces o level

theorem movable_ofValue {o : PrintOptions} (v : Value) :
    (toNode v).Movable o ↔ Moves fun _ => v.pieces := by
  cases v <;> rfl

theorem movable_ofTypeRef {o : PrintOptions} (t : TypeRef) :
    (toNode t).Movable o ↔ Moves fun _ => t.pieces := by
  cases t <;> rfl

theorem movable_ofSelection {o : PrintOptions} (s : Selection) :
    (toNode s).Movable o ↔ Moves fun level => s.pieces o level := by
  cases s <;> rfl

theorem movable_typeRef {o : PrintOptions} {t : TypeRef}
    (h : ∀ c ∈ childrenOfTypeRef t, c.node.Movable o) : Moves fun _ => t.pieces := by
  cases t with
  | named t => exact Child.forall_single.mp h
  | list item =>
    have hitem := (movable_ofTypeRef item).mp (Child.forall_single.mp h)
    exact moves_between (by decide) (by decide) hitem
  | nonNull inner =>
    have hinner := (movable_ofTypeRef inner).mp (Child.forall_single.mp h)
    exact moves_append hinner (moves_flat (by decide) moves_nil)

theorem moves_value {o : PrintOptions} {v : Value} (hv : v.Lawful)
    (hb : ∀ content, v ≠ .string content true)
    (h : ∀ c ∈ childrenOfValue v, c.node.Movable o) : Moves fun _ => v.pieces := by
  match v with
  | .null | .boolean true | .boolean false => exact moves_flat (by decide) moves_nil
  | .int _ | .float _ => exact moves_flat (notMem_newline_of_number hv.1) moves_nil
  | .string content false => exact moves_flat (notMem_newline_of_string content) moves_nil
  | .string content true => exact absurd rfl (hb content)
  | .enum _ => exact moves_name hv.1 moves_nil
  | .variable _ => exact moves_flat (by decide) (moves_name hv moves_nil)
  | .list vs =>
    simp only [childrenOfValue, Child.forall_members, movable_ofValue] at h
    exact moves_between (by decide) (by decide) (moves_joined (moves_values h))
  | .object fs =>
    simp only [childrenOfValue, Child.forall_members] at h
    exact moves_between (by decide) (by decide) (moves_joined (moves_objectFields h))

/-- What a node adds to the printed forms of its children has no line feeds, unless it is a
block. -/
theorem movable_of_children {o : PrintOptions} {n : Node} (hn : n.Lawful)
    (hb : ∀ content, n ≠ .value (.string content true))
    (h : ∀ c ∈ n.children, c.node.Movable o) : n.Movable o := by
  match n with
  | .document d => exact trivial
  | .operationDefinition d =>
    simp only [children, List.forall_mem_append, Child.forall_optional, Child.forall_list,
      Child.forall_single] at h
    obtain ⟨⟨⟨hname, hvariables⟩, hdirectives⟩, hset⟩ := h
    exact moves_operation hname hvariables hdirectives hset
  | .fragmentDefinition f =>
    simp only [children, List.forall_mem_append, Child.forall_list, Child.forall_single] at h
    obtain ⟨⟨⟨hname, hcondition⟩, hdirectives⟩, hset⟩ := h
    exact moves_fragmentDefinition hname hcondition hdirectives hset
  | .variableDefinition v =>
    simp only [children, List.forall_mem_append, Child.forall_optional, Child.forall_list,
      Child.forall_single, movable_ofTypeRef, movable_ofValue] at h
    obtain ⟨⟨⟨hvariable, htype⟩, hdefault⟩, hdirectives⟩ := h
    exact moves_variableDefinition hvariable htype hdefault hdirectives
  | .selectionSet ⟨ss⟩ =>
    simp only [children, Child.forall_members, movable_ofSelection] at h
    exact moves_selectionSet h
  | .field ⟨aliasName, label, arguments, dirs, set⟩ =>
    simp only [children, List.forall_mem_append, Child.forall_optional, Child.forall_list,
      Child.forall_single] at h
    obtain ⟨⟨⟨⟨halias, hlabel⟩, harguments⟩, hdirectives⟩, hset⟩ := h
    exact moves_append (moves_append (moves_fieldHead halias hlabel harguments)
      (moves_directives hdirectives)) (moves_setOption hset)
  | .fragmentSpread s =>
    simp only [children, List.forall_mem_append, Child.forall_list, Child.forall_single] at h
    exact moves_fragmentSpread h.1 h.2
  | .inlineFragment ⟨condition, dirs, set⟩ =>
    simp only [children, List.forall_mem_append, Child.forall_optional, Child.forall_list,
      Child.forall_single] at h
    obtain ⟨⟨hcondition, hdirectives⟩, hset⟩ := h
    exact moves_inlineFragment hcondition hdirectives hset
  | .argument a =>
    simp only [children, List.forall_mem_append, Child.forall_single, movable_ofValue] at h
    exact moves_argument h.1 h.2
  | .directive d =>
    simp only [children, List.forall_mem_append, Child.forall_list, Child.forall_single] at h
    exact moves_directive h.1 h.2
  | .variable v =>
    simp only [children, Child.forall_single] at h
    have hname : Moves fun _ => v.name.pieces := h
    exact moves_flat (by decide) hname
  | .name n => exact moves_name hn moves_nil
  | .namedType t =>
    simp only [children, Child.forall_single] at h
    exact h
  | .typeRef t => exact movable_typeRef h
  | .value v => exact moves_value hn (fun content heq => hb content (congrArg Node.value heq)) h
  | .objectField f =>
    simp only [children, List.forall_mem_append, Child.forall_single, movable_ofValue] at h
    exact moves_objectField h.1 h.2

/-- A tree without blocks. -/
def BlockFree (n : Node) : Prop := ∀ content, ¬ (Node.value (.string content true)).Inside n

theorem BlockFree.of_children {n : Node} (hn : ∀ content, n ≠ .value (.string content true))
    (h : ∀ c ∈ n.children, c.node.BlockFree) : n.BlockFree := by
  intro content hin
  cases hin with
  | self => exact hn content rfl
  | deeper hc hin => exact h _ hc content hin

/-- A valid tree without blocks moves with its level, and so does all that is in it. -/
theorem movable_of_blockFree {n : Node} (hv : n.Valid) (hb : n.BlockFree) (o : PrintOptions) :
    n.Throughout (Movable o) := by
  intro m hm
  have hrules : m.Throughout fun k => k.Lawful ∧ k.BlockFree := by
    intro k hk
    exact ⟨n.valid_iff_throughout.mp hv k (hk.trans hm),
      fun content hblock => hb content ((hblock.trans hk).trans hm)⟩
  clear hm
  refine of_children (P := fun m => m.Throughout _ → m.Movable o) (fun k ih hk => ?_) m hrules
  refine movable_of_children hk.here.1 (fun content heq => ?_) fun c hc => ih c hc (hk.child hc)
  exact hk.here.2 content (heq ▸ .self k)

/-- The text at a level is the text at level zero, moved. -/
theorem printAt_of_movable {n : Node} {o : PrintOptions} (hm : n.Movable o)
    (hd : ∀ d, n ≠ .document d) (level : Nat) :
    (n.printAt o level).toList = indented level (n.printWith o).toList := by
  have hmoves : Moves fun level => n.pieces o level := by
    cases n with
    | document d => exact absurd rfl (hd d)
    | _ => exact hm
  have hlevel := hmoves 0 level
  rw [Nat.zero_add] at hlevel
  rw [printWith, printAt, printAt, String.toList_ofList, String.toList_ofList, hlevel]

/-! ## Selections in their selection sets -/

/-- A selection in a tree, with the number of selection sets around it. -/
inductive Selects : Node → Nat → Selection → Prop where
  | member {set : SelectionSet} {s : Selection} :
      s ∈ set.selections → Selects (.selectionSet set) 1 s
  | deeper {set : SelectionSet} {m s : Selection} {depth : Nat} :
      m ∈ set.selections → Selects (toNode m) depth s →
      Selects (.selectionSet set) (depth + 1) s
  | field {f : Field} {set : SelectionSet} {s : Selection} {depth : Nat} :
      f.selectionSet = some set → Selects (.selectionSet set) depth s → Selects (.field f) depth s
  | inlineFragment {f : InlineFragment} {s : Selection} {depth : Nat} :
      Selects (.selectionSet f.selectionSet) depth s → Selects (.inlineFragment f) depth s
  | operation {d : OperationDefinition} {s : Selection} {depth : Nat} :
      Selects (.selectionSet d.selectionSet) depth s → Selects (.operationDefinition d) depth s
  | fragment {f : FragmentDefinition} {s : Selection} {depth : Nat} :
      Selects (.selectionSet f.selectionSet) depth s → Selects (.fragmentDefinition f) depth s
  | document {d : Document} {x : Definition} {s : Selection} {depth : Nat} :
      x ∈ d.definitions → Selects (toNode x) depth s → Selects (.document d) depth s

theorem Selects.inside {n : Node} {depth : Nat} {s : Selection} (h : n.Selects depth s) :
    (toNode s).Inside n := by
  induction h with
  | member hs => exact inside_of_members rfl _ hs
  | deeper hm _ ih => exact ih.trans (inside_of_members rfl _ hm)
  | field hset _ ih => exact ih.trans (inside_of_optional rfl _ hset)
  | inlineFragment _ ih => exact ih.trans (inside_of_single rfl)
  | operation _ ih => exact ih.trans (inside_of_single rfl)
  | fragment _ ih => exact ih.trans (inside_of_single rfl)
  | document hx _ ih => exact ih.trans (inside_of_members rfl _ hx)

theorem Selects.ne_nil {set : SelectionSet} {depth : Nat} {s : Selection}
    (h : (Node.selectionSet set).Selects depth s) : set.selections ≠ [] := by
  cases h with
  | member hs => exact List.ne_nil_of_mem hs
  | deeper hm _ => exact List.ne_nil_of_mem hm

section Lines
variable (o : PrintOptions) (level : Nat)

/-- The text of a selection on lines of its own. -/
def ownLines (s : Selection) : List Char :=
  newLine level ++ (render (s.pieces o level) ++ ['\n'])

/-- After each selection comes another line. -/
theorem selections_newline (ss : List Selection) (more : List Char) :
    ∃ cs, render (Selection.piecesList o level ss) ++ '\n' :: more = '\n' :: cs := by
  cases ss with
  | nil => exact ⟨more, rfl⟩
  | cons s ss => exact ⟨_, rfl⟩

theorem ownLines_selections {s : Selection} {ss : List Selection} (h : s ∈ ss)
    (more : List Char) :
    ownLines o level s <:+: render (Selection.piecesList o level ss) ++ '\n' :: more := by
  induction ss with
  | nil => cases h
  | cons first ss ih =>
    have hrender : render (Selection.piecesList o level (first :: ss)) ++ '\n' :: more =
        newLine level ++ (render (first.pieces o level) ++
          (render (Selection.piecesList o level ss) ++ '\n' :: more)) := by
      rw [Selection.piecesList, List.cons_append, render_cons, render_append, List.append_assoc,
        List.append_assoc]
      rfl
    rw [hrender]
    rcases List.mem_cons.mp h with rfl | h
    · obtain ⟨cs, hcs⟩ := selections_newline o level ss more
      rw [hcs]
      exact ⟨[], cs, by simp [ownLines]⟩
    · exact ((ih h).trans (List.suffix_append ..).isInfix).trans (List.suffix_append ..).isInfix

/-- Between its braces a selection set has the lines of its selections, one level deeper. -/
theorem render_selectionSet {set : SelectionSet} (h : set.selections ≠ []) :
    render (set.pieces o level) = '\x7b' :: (render (Selection.piecesList o (level + 1)
      set.selections) ++ '\n' :: (List.replicate (2 * level) ' ' ++ ['\x7d'])) := by
  obtain ⟨_ | ⟨s, ss⟩⟩ := set
  · exact absurd rfl h
  · simp only [SelectionSet.pieces, List.cons_append, render_cons, render_append]
    rfl

/-- A definition is printed in its document as it is alone. -/
theorem infix_of_definition {x : Definition} {ds : List Definition} (h : x ∈ ds) :
    render (x.pieces o level) <:+: render (Document.definitionPieces o level ds) := by
  match ds with
  | [d] =>
    obtain rfl := List.mem_singleton.mp h
    exact List.infix_rfl
  | d :: next :: ds =>
    show _ <:+: render (d.pieces o level ++ .line 0 :: .line 0 ::
      Document.definitionPieces o level (next :: ds))
    rw [render_append, render_cons, render_cons]
    rcases List.mem_cons.mp h with rfl | h
    · exact (List.prefix_append ..).isInfix
    · refine (infix_of_definition h).trans (List.IsSuffix.isInfix ?_)
      exact ((List.suffix_append ..).trans (List.suffix_append ..)).trans (List.suffix_append ..)

end Lines

theorem pieces_ofSelection (o : PrintOptions) (level : Nat) (s : Selection) :
    (toNode s).pieces o level = s.pieces o level := by
  cases s <;> rfl

theorem pieces_ofDefinition (o : PrintOptions) (level : Nat) (x : Definition) :
    (toNode x).pieces o level = x.pieces o level := by
  cases x <;> rfl

theorem infix_of_selection {set : SelectionSet} {s : Selection} (o : PrintOptions) (level : Nat)
    (h : s ∈ set.selections) :
    ownLines o (level + 1) s <:+: render (set.pieces o level) := by
  rw [render_selectionSet o level (List.ne_nil_of_mem h)]
  exact (ownLines_selections o (level + 1) h _).trans (List.suffix_cons ..).isInfix

/-- A selection stands in the text of a tree on lines of its own, as it is printed at the level
of the selection sets around it. -/
theorem Selects.infix_ownLines {n : Node} {depth : Nat} {s : Selection} (h : n.Selects depth s)
    (o : PrintOptions) (level : Nat) :
    ownLines o (level + depth) s <:+: render (n.pieces o level) := by
  induction h generalizing level with
  | member hs => exact infix_of_selection o level hs
  | @deeper set m s depth hmember _ ih =>
    have hinner : ownLines o (level + 1 + depth) s <:+: render (m.pieces o (level + 1)) :=
      pieces_ofSelection o (level + 1) m ▸ ih (level + 1)
    have hm : render (m.pieces o (level + 1)) <:+: ownLines o (level + 1) m :=
      List.infix_append' ..
    rw [Nat.add_assoc, Nat.add_comm 1] at hinner
    exact (hinner.trans hm).trans (infix_of_selection o level hmember)
  | @field f set s depth hset hin ih =>
    obtain ⟨aliasName, label, arguments, dirs, _⟩ := f
    obtain rfl := hset
    refine (ih level).trans (List.IsSuffix.isInfix ?_)
    show render (set.pieces o level) <:+ render (_ ++ SelectionSet.piecesOption o level (some set))
    rw [render_append, SelectionSet.piecesOption, if_neg (by simpa using hin.ne_nil), render_cons]
    exact (List.suffix_append ..).trans (List.suffix_append ..)
  | @inlineFragment f s depth _ ih =>
    obtain ⟨condition, dirs, set⟩ := f
    refine (ih level).trans (List.IsSuffix.isInfix ?_)
    show render (set.pieces o level) <:+ render (_ ++ .space :: set.pieces o level)
    rw [render_append, render_cons]
    exact (List.suffix_append ..).trans (List.suffix_append ..)
  | @operation d s depth _ ih =>
    refine (ih level).trans ?_
    show _ <:+: render (d.pieces o level)
    unfold OperationDefinition.pieces
    split
    · exact List.infix_rfl
    · rw [render_append]
      exact (List.suffix_append ..).isInfix
  | @fragment f s depth _ ih =>
    refine (ih level).trans (List.IsSuffix.isInfix ?_)
    show render (f.selectionSet.pieces o level) <:+
      render (_ ++ .space :: f.selectionSet.pieces o level)
    rw [render_append, render_cons]
    exact (List.suffix_append ..).trans (List.suffix_append ..)
  | @document d x s depth hx _ ih =>
    have hinner : ownLines o (level + depth) s <:+: render (x.pieces o level) :=
      pieces_ofDefinition o level x ▸ ih level
    refine (hinner.trans (infix_of_definition o level hx)).trans ?_
    show _ <:+: render (Document.definitionPieces o level d.definitions ++ [.line 0])
    rw [render_append]
    exact (List.prefix_append ..).isInfix

/-- The level only indents. A valid tree without blocks that is no document has at each level
the text that it has at level zero, moved by two spaces for each step after every line feed. So
a selection in a tree stands there, on lines of its own, as it is printed alone, moved by the
selection sets around it. -/
theorem printAt_indented {n : Node} (hv : n.Valid) (hb : n.BlockFree) (o : PrintOptions)
    (level : Nat) :
    ((∀ d, n ≠ .document d) →
      (n.printAt o level).toList = indented level (n.printWith o).toList) ∧
    ∀ depth s, n.Selects depth s →
      newLine (level + depth) ++
          (indented (level + depth) ((toNode s).printWith o).toList ++ ['\n']) <:+:
        (n.printAt o level).toList := by
  have hmovable : n.Throughout (Movable o) := movable_of_blockFree hv hb o
  refine ⟨fun hd => printAt_of_movable hmovable.here hd level, fun depth s hs => ?_⟩
  have hno : ∀ d, toNode s ≠ .document d := by cases s <;> exact nofun
  rw [← printAt_of_movable (hmovable (toNode s) hs.inside) hno]
  simp only [printAt, String.toList_ofList, pieces_ofSelection]
  exact hs.infix_ownLines o level

/-- A field with two arguments, one of them a string with a line feed. -/
def twoArguments : Selection :=
  .field ⟨none, ⟨"b"⟩, [⟨⟨"c"⟩, .string "x\ny" false⟩, ⟨⟨"d"⟩, .null⟩], [], none⟩

/-- That field, in the selection set of another. -/
def nestedArguments : Node := .selectionSet ⟨[.field ⟨none, ⟨"a"⟩, [], [], some ⟨[twoArguments]⟩⟩]⟩

theorem blockFree_nestedArguments : nestedArguments.BlockFree := by
  have hname : ∀ label, (Node.name label).BlockFree := fun _ => .of_children nofun nofun
  have hargument : ∀ label v, (toNode v).BlockFree → (Node.argument ⟨label, v⟩).BlockFree :=
    fun label v hv => .of_children nofun
      (List.forall_mem_cons.mpr ⟨hname label, List.forall_mem_singleton.mpr hv⟩)
  have hstring : (Node.value (.string "x\ny" false)).BlockFree := .of_children (by simp) nofun
  have hb : (toNode twoArguments).BlockFree :=
    .of_children nofun (List.forall_mem_cons.mpr ⟨hname _, List.forall_mem_cons.mpr
      ⟨hargument _ _ hstring,
        List.forall_mem_singleton.mpr (hargument _ _ (.of_children nofun nofun))⟩⟩)
  have hset : (toNode (SelectionSet.mk [twoArguments])).BlockFree :=
    .of_children nofun (List.forall_mem_singleton.mpr hb)
  exact .of_children nofun (List.forall_mem_singleton.mpr
    (.of_children nofun (List.forall_mem_cons.mpr ⟨hname _, List.forall_mem_singleton.mpr hset⟩)))

/-- With a width of 3 at level 1, the arguments are moved by three steps. -/
theorem printAt_nestedArguments :
    nestedArguments.Valid ∧ nestedArguments.BlockFree ∧ nestedArguments.Selects 2 twoArguments ∧
      (toNode twoArguments).printWith ⟨some 3⟩ = "b(\n  c: \"x\\ny\"\n  d: null\n)" ∧
      (nestedArguments.printAt ⟨some 3⟩ 1).toList =
        indented 1 (nestedArguments.printWith ⟨some 3⟩).toList ∧
      newLine 3 ++ (indented 3 ((toNode twoArguments).printWith ⟨some 3⟩).toList ++ ['\n']) <:+:
        (nestedArguments.printAt ⟨some 3⟩ 1).toList := by
  have hv : nestedArguments.Valid := by
    refine ⟨nofun, ⟨nofun, rfl, nofun, nofun, nofun, ⟨nofun, rfl, ?_, nofun, trivial⟩, trivial⟩,
      trivial⟩
    exact List.forall_mem_cons.mpr ⟨⟨rfl, trivial⟩, List.forall_mem_singleton.mpr ⟨rfl, trivial⟩⟩
  have hs : nestedArguments.Selects 2 twoArguments :=
    .deeper (List.mem_singleton_self _) (.field rfl (.member (List.mem_singleton_self _)))
  have h := printAt_indented hv blockFree_nestedArguments ⟨some 3⟩ 1
  exact ⟨hv, blockFree_nestedArguments, hs, by decide +kernel, h.1 nofun, h.2 2 twoArguments hs⟩

end Node
end QueryDoc
