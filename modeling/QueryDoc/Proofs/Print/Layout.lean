import QueryDoc.Print.Node
import QueryDoc.Proofs.Print.Neat
import QueryDoc.Proofs.Tree.Valid

/-! The layout of valid nodes is neat, whatever the options and the indentation: no two
terminals run into each other. By recursion on the tree; the form of each part stays
neat before everything that continues no terminal (`Clean`), and the forms of parts that
may follow a name or a number continue none (`Opens`). -/
namespace QueryDoc
open Lexer

variable {ps qs : List Piece} {t : Token} {p : Piece}

/-- Pieces that are neat before all neat pieces that continue no terminal. -/
def Clean (ps : List Piece) : Prop :=
  ∀ ⦃qs⦄, Fresh (render qs) → Neat qs → Neat (ps ++ qs)

/-- Pieces that continue no terminal, nor does what follows where they are none. -/
def Opens (ps : List Piece) : Prop := ∀ ⦃qs⦄, Fresh (render qs) → Fresh (render (ps ++ qs))

/-! ## Fresh pieces -/

/-- Whether a piece continues no terminal before it. -/
def Piece.isFresh : Piece → Bool
  | .token (.name _) | .token (.number _) | .token (.string ..) | .token .spread
  | .token .invalid => false
  | _ => true

theorem fresh_nil : Fresh (render []) := fun _ => .nil _

theorem fresh_cons {c : Char} (hn : isNameChar c = false) (hg : Numeral.goesOn c = false)
    (hq : (c == '"') = false) (cs : List Char) : Fresh (c :: cs) := by
  intro t
  refine .cons ?_ cs
  match t with
  | .name _ => exact hn
  | .number _ => exact hg
  | .string _ false => exact hq
  | .string _ true | .bang | .dollar | .atSign | .parenL | .parenR | .bracketL | .bracketR
  | .braceL | .braceR | .spread | .colon | .equals | .invalid => rfl

theorem fresh_piece (h : p.isFresh = true) (qs : List Piece) : Fresh (render (p :: qs)) := by
  match p with
  | .space | .comma | .line _ => exact fresh_cons (by decide) (by decide) (by decide) _
  | .token .bang | .token .dollar | .token .atSign | .token .parenL | .token .parenR
  | .token .bracketL | .token .bracketR | .token .braceL | .token .braceR | .token .colon
  | .token .equals => exact fresh_cons (by decide) (by decide) (by decide) _

theorem opens_nil : Opens [] := fun _ h => h

theorem opens_cons (h : p.isFresh = true) (ps : List Piece) : Opens (p :: ps) :=
  fun _ _ => fresh_piece h _

theorem opens_append (hp : Opens ps) (hq : Opens qs) : Opens (ps ++ qs) := by
  intro rs hr
  rw [List.append_assoc]
  exact hp (hq hr)

/-! ## Clean pieces -/

theorem clean_nil : Clean [] := fun _ _ h => h

theorem clean_append (hp : Clean ps) (hq : Clean qs) (ho : Opens qs) : Clean (ps ++ qs) := by
  intro rs hr hn
  rw [List.append_assoc]
  exact hp (ho hr) (hq hr hn)

theorem clean_blank (h : p.token? = none) (hp : Clean ps) : Clean (p :: ps) :=
  fun _ hr hn => .blank h (hp hr hn)

theorem clean_token (hs : Spells t.chars t) (hsigil : t.isSigil = false) (hp : Clean ps)
    (ho : Opens ps) : Clean (.token t :: ps) :=
  fun _ hr hn => .token hs hsigil (ho hr t) (hp hr hn)

/-- Whether a terminal is one of fixed spelling that something may follow. -/
def Token.isMark : Token → Bool
  | .name _ | .number _ | .string .. | .dollar | .atSign | .invalid => false
  | _ => true

theorem clean_mark (ht : t.isMark = true) (hp : Clean ps) : Clean (.token t :: ps) := by
  intro qs hr hn
  have hmark : Spells t.chars t ∧ t.isSigil = false ∧ ∀ c, continues t c = false := by
    match t with
    | .bang | .parenL | .parenR | .bracketL | .bracketR | .braceL | .braceR | .spread | .colon
    | .equals => exact ⟨by constructor, rfl, fun _ => rfl⟩
  exact .token hmark.1 hmark.2.1 (fun c _ => hmark.2.2 c) (hp hr hn)

theorem spells_name {text : String} (h : Name.Valid ⟨text⟩) : Spells text.toList (.name text) := by
  have := Spells.name h
  rwa [String.ofList_toList] at this

theorem clean_name {text : String} (h : Name.Valid ⟨text⟩) (hp : Clean ps) (ho : Opens ps) :
    Clean (.name text :: ps) :=
  clean_token (spells_name h) rfl hp ho

theorem clean_sigil {text : String} (ht : t.isSigil = true) (h : Name.Valid ⟨text⟩)
    (hp : Clean ps) (ho : Opens ps) : Clean (.token t :: .name text :: ps) := by
  intro qs hr hn
  have hsigil : Spells t.chars t ∧ ∀ c, continues t c = false := by
    match t with
    | .dollar | .atSign => exact ⟨by constructor, fun _ => rfl⟩
  exact .sigil hsigil.1 ht (fun c _ => hsigil.2 c) (clean_name h hp ho hr hn)

theorem clean_joined {rows : List (List Piece)} (h : ∀ row ∈ rows, Clean row) :
    Clean (joinPieces rows) := by
  match rows with
  | [] => exact clean_nil
  | [row] => exact h row (by simp)
  | row :: next :: rows =>
    have hrest : Clean (joinPieces (next :: rows)) :=
      clean_joined fun r hr => h r (List.mem_cons_of_mem _ hr)
    exact clean_append (h row (by simp)) (clean_blank rfl hrest) (opens_cons rfl _)

/-- Pieces between brackets of some kind. -/
theorem clean_between {l r : Token} (hl : l.isMark = true) (hr : r.isMark = true)
    (hfresh : (Piece.token r).isFresh = true) (hp : Clean ps) :
    Clean (.token l :: ps ++ [.token r]) :=
  clean_mark hl (clean_append hp (clean_mark hr clean_nil) (opens_cons hfresh _))

/-! ## Names, values and types -/

theorem clean_variable {v : Variable} (h : v.Valid) : Clean v.pieces :=
  clean_sigil rfl h clean_nil opens_nil

theorem clean_word {text : String} (h : Name.Valid ⟨text⟩) : Clean [.name text] :=
  clean_name h clean_nil opens_nil

theorem clean_number {text : String} (h : Numeral.IsNumber text.toList) :
    Clean [.token (.number text)] := by
  have hs := Spells.number h
  rw [String.ofList_toList] at hs
  exact clean_token hs rfl clean_nil opens_nil

theorem spells_stringToken (content : String) (block : Bool) :
    Spells (stringToken content block).chars (stringToken content block) := by
  rw [stringToken]
  cases hb : block && Quoted.fitsBlock content.toList with
  | false =>
    have := Spells.string (Quoted.isInside_encode content.toList)
    rwa [Quoted.decode_encode, String.ofList_toList] at this
  | true =>
    rw [Bool.and_eq_true] at hb
    have := Spells.block (Quoted.isBlockInside_encodeBlock hb.2)
    rwa [Quoted.decodeBlock_encodeBlock, String.ofList_toList] at this

theorem clean_string (content : String) (block : Bool) :
    Clean [.token (stringToken content block)] :=
  clean_token (spells_stringToken content block) rfl clean_nil opens_nil

/-- A part after its name and a colon. -/
theorem clean_named {text : String} (h : Name.Valid ⟨text⟩) (hp : Clean ps) :
    Clean (.name text :: .token .colon :: .space :: ps) :=
  clean_name h (clean_mark rfl (clean_blank rfl hp)) (opens_cons rfl _)

mutual

theorem clean_value : ∀ {v : Value}, v.Valid → Clean v.pieces
  | .null, _ => clean_word rfl
  | .boolean true, _ => clean_word rfl
  | .boolean false, _ => clean_word rfl
  | .int _, h => clean_number h.1
  | .float _, h => clean_number h.1
  | .string content block, _ => clean_string content block
  | .enum _, h => clean_word h.1
  | .variable _, h => clean_variable h
  | .list _, h => clean_between rfl rfl rfl (clean_joined (clean_values h))
  | .object _, h => clean_between rfl rfl rfl (clean_joined (clean_objectFields h))

theorem clean_values :
    ∀ {vs : List Value}, Value.ValidList vs → ∀ row ∈ Value.piecesList vs, Clean row
  | [], _ => by simp [Value.piecesList]
  | v :: vs, h => by
    intro row hrow
    rcases List.mem_cons.mp hrow with rfl | hrow
    · exact clean_value h.1
    · exact clean_values h.2 row hrow

theorem clean_objectFields :
    ∀ {fs : List ObjectField}, Value.ValidFields fs → ∀ row ∈ Value.piecesFields fs, Clean row
  | [], _ => by simp [Value.piecesFields]
  | ⟨n, v⟩ :: fs, h => by
    intro row hrow
    rcases List.mem_cons.mp hrow with rfl | hrow
    · exact clean_named h.1.1 (clean_value h.1.2)
    · exact clean_objectFields h.2 row hrow

end

theorem clean_objectField {f : ObjectField} (h : f.Valid) : Clean f.pieces :=
  clean_named h.1 (clean_value h.2)

theorem clean_typeRef {t : TypeRef} (h : t.Valid) : Clean t.pieces := by
  induction t with
  | named t => exact clean_word h
  | list item ih => exact clean_between rfl rfl rfl (ih h)
  | nonNull inner ih => exact clean_append (ih h.1) (clean_mark rfl clean_nil) (opens_cons rfl _)

/-! ## Arguments and selections -/

theorem clean_argument {a : Argument} (h : a.Valid) : Clean a.pieces :=
  clean_named h.1 (clean_value h.2)

theorem clean_arguments {as : List Argument} (h : ∀ a ∈ as, a.Valid) :
    Clean (argumentPieces as) := by
  have hrows : ∀ row ∈ as.map (·.pieces), Clean row := by
    intro row hrow
    obtain ⟨a, ha, rfl⟩ := List.mem_map.mp hrow
    exact clean_argument (h a ha)
  rw [argumentPieces]
  split
  · exact clean_nil
  · exact clean_between rfl rfl rfl (clean_joined hrows)

theorem opens_arguments (as : List Argument) : Opens (argumentPieces as) := by
  rw [argumentPieces]
  split
  · exact opens_nil
  · exact opens_cons rfl _

/-- Parts that each start with a blank. -/
theorem clean_spread {α : Type} {xs : List α} {f : α → List Piece} (hp : p.token? = none)
    (hfresh : p.isFresh = true) (h : ∀ x ∈ xs, Clean (f x)) :
    Clean (xs.flatMap fun x => p :: f x) ∧ Opens (xs.flatMap fun x => p :: f x) := by
  induction xs with
  | nil => exact ⟨clean_nil, opens_nil⟩
  | cons x xs ih =>
    obtain ⟨ihc, iho⟩ := ih fun y hy => h y (List.mem_cons_of_mem _ hy)
    rw [List.flatMap_cons]
    exact ⟨clean_append (clean_blank hp (h x (by simp))) ihc iho,
      opens_append (opens_cons hfresh _) iho⟩

theorem clean_foldedArguments {as : List Argument} (level : Nat) (h : ∀ a ∈ as, a.Valid) :
    Clean (foldedArgumentPieces level as) := by
  have hrows := (clean_spread (p := .line (level + 1)) rfl rfl fun a ha =>
    clean_argument (h a ha)).1
  exact clean_mark rfl <|
    clean_append hrows (clean_blank rfl (clean_mark rfl clean_nil)) (opens_cons rfl _)

theorem clean_directive {d : Directive} (h : d.Valid) : Clean d.pieces :=
  clean_sigil rfl h.1 (clean_arguments h.2) (opens_arguments _)

theorem clean_directives {ds : List Directive} (h : ∀ d ∈ ds, d.Valid) :
    Clean (directivePieces ds) :=
  (clean_spread rfl rfl fun d hd => clean_directive (h d hd)).1

theorem opens_directives (ds : List Directive) : Opens (directivePieces ds) := by
  cases ds with
  | nil => exact opens_nil
  | cons d ds => exact opens_cons rfl _

theorem clean_fieldName {aliasName : Option Name} {name : Name} (ha : ∀ n ∈ aliasName, n.Valid)
    (hn : name.Valid) : Clean (fieldNamePieces aliasName name) := by
  cases aliasName with
  | none => exact clean_word hn
  | some a => exact clean_named (ha a rfl) (clean_word hn)

theorem clean_fieldHead {aliasName : Option Name} {name : Name} {as : List Argument}
    (o : PrintOptions) (level : Nat) (ha : ∀ n ∈ aliasName, n.Valid) (hn : name.Valid)
    (has : ∀ a ∈ as, a.Valid) : Clean (fieldHeadPieces o level aliasName name as) := by
  have hname := clean_fieldName ha hn
  rw [fieldHeadPieces]
  split
  · exact clean_append hname (clean_foldedArguments level has) (opens_cons rfl _)
  · exact clean_append hname (clean_arguments has) (opens_arguments _)

theorem clean_fragmentSpread {s : FragmentSpread} (h : s.Valid) : Clean s.pieces :=
  clean_mark rfl (clean_name h.1 (clean_directives h.2.2) (opens_directives _))

theorem clean_on {t : NamedType} (h : t.Valid) : Clean (.name "on" :: .space :: t.pieces) :=
  clean_name rfl (clean_blank rfl (clean_word h)) (opens_cons rfl _)

theorem clean_condition {condition : Option NamedType} (h : ∀ t ∈ condition, t.Valid) :
    Clean (conditionPieces condition) := by
  cases condition with
  | none => exact clean_nil
  | some t => exact clean_blank rfl (clean_on (h t rfl))

theorem opens_set (o : PrintOptions) (level : Nat) (set : Option SelectionSet) :
    Opens (SelectionSet.piecesOption o level set) := by
  cases set with
  | none => exact opens_nil
  | some s =>
    rw [SelectionSet.piecesOption]
    split
    · exact opens_nil
    · exact opens_cons rfl _

mutual

theorem clean_selection (o : PrintOptions) (level : Nat) :
    ∀ {s : Selection}, s.Valid → Clean (s.pieces o level)
  | .field _, h => clean_field o level h
  | .fragmentSpread _, h => clean_fragmentSpread h
  | .inlineFragment _, h => clean_inlineFragment o level h

theorem clean_field (o : PrintOptions) (level : Nat) :
    ∀ {f : Field}, f.Valid → Clean (f.pieces o level)
  | ⟨_, _, _, _, _⟩, ⟨ha, hn, has, hds, hset⟩ =>
    clean_append
      (clean_append (clean_fieldHead o level ha hn has) (clean_directives hds) (opens_directives _))
      (clean_setOption o level hset) (opens_set o level _)

theorem clean_inlineFragment (o : PrintOptions) (level : Nat) :
    ∀ {f : InlineFragment}, f.Valid → Clean (f.pieces o level)
  | ⟨_, _, _⟩, ⟨hc, hds, hset⟩ =>
    clean_mark rfl <| clean_append
      (clean_append (clean_condition hc) (clean_directives hds) (opens_directives _))
      (clean_blank rfl (clean_selectionSet o level hset)) (opens_cons rfl _)

theorem clean_selectionSet (o : PrintOptions) (level : Nat) :
    ∀ {s : SelectionSet}, s.Valid → Clean (s.pieces o level)
  | ⟨[]⟩, h => absurd rfl h.1
  | ⟨_ :: _⟩, h =>
    clean_mark rfl <| clean_append (clean_selections o (level + 1) h.2).1
      (clean_blank rfl (clean_mark rfl clean_nil)) (opens_cons rfl _)

theorem clean_setOption (o : PrintOptions) (level : Nat) :
    ∀ {set : Option SelectionSet}, SelectionSet.ValidOption set →
      Clean (SelectionSet.piecesOption o level set)
  | none, _ => clean_nil
  | some s, h => by
    rw [SelectionSet.piecesOption]
    split
    · exact clean_nil
    · exact clean_blank rfl (clean_selectionSet o level h)

theorem clean_selections (o : PrintOptions) (level : Nat) :
    ∀ {ss : List Selection}, Selection.ValidList ss →
      Clean (Selection.piecesList o level ss) ∧ Opens (Selection.piecesList o level ss)
  | [], _ => ⟨clean_nil, opens_nil⟩
  | _ :: _, h =>
    have ⟨hc, ho⟩ := clean_selections o level h.2
    ⟨clean_append (clean_blank rfl (clean_selection o level h.1)) hc ho, opens_cons rfl _⟩

end

/-! ## Definitions and documents -/

theorem clean_default {value : Option Value} (h : ∀ v ∈ value, v.Valid) :
    Clean (VariableDefinition.defaultPieces value) := by
  cases value with
  | none => exact clean_nil
  | some v => exact clean_blank rfl (clean_mark rfl (clean_blank rfl (clean_value (h v rfl))))

theorem opens_default (value : Option Value) :
    Opens (VariableDefinition.defaultPieces value) := by
  cases value with
  | none => exact opens_nil
  | some v => exact opens_cons rfl _

theorem clean_variableDefinition {v : VariableDefinition} (h : v.Valid) : Clean v.pieces := by
  obtain ⟨hv, ht, hd, hds⟩ := h
  have htype : Clean (.token .colon :: .space :: v.type.pieces) :=
    clean_mark rfl (clean_blank rfl (clean_typeRef ht))
  exact clean_append (clean_append (clean_append (clean_variable hv) htype (opens_cons rfl _))
    (clean_default hd) (opens_default _)) (clean_directives hds) (opens_directives _)

theorem clean_variables {o : OperationDefinition} (h : ∀ v ∈ o.variableDefinitions, v.Valid) :
    Clean o.variablePieces := by
  have hrows : ∀ row ∈ o.variableDefinitions.map (·.pieces), Clean row := by
    intro row hrow
    obtain ⟨v, hv, rfl⟩ := List.mem_map.mp hrow
    exact clean_variableDefinition (h v hv)
  rw [OperationDefinition.variablePieces]
  split
  · exact clean_nil
  · split
    · exact clean_blank rfl (clean_between rfl rfl rfl (clean_joined hrows))
    · exact clean_between rfl rfl rfl (clean_joined hrows)

theorem opens_variables (o : OperationDefinition) : Opens o.variablePieces := by
  rw [OperationDefinition.variablePieces]
  split
  · exact opens_nil
  · split <;> exact opens_cons rfl _

theorem clean_operationName {name : Option Name} (h : ∀ n ∈ name, n.Valid) :
    Clean (OperationDefinition.namePieces name) := by
  cases name with
  | none => exact clean_nil
  | some n => exact clean_blank rfl (clean_word (h n rfl))

theorem opens_operationName (name : Option Name) :
    Opens (OperationDefinition.namePieces name) := by
  cases name with
  | none => exact opens_nil
  | some n => exact opens_cons rfl _

theorem valid_keyword (k : OperationKind) : Name.Valid ⟨k.keyword⟩ := by
  cases k <;> rfl

theorem clean_operationHead {o : OperationDefinition} (h : o.Valid) : Clean o.headPieces := by
  obtain ⟨hn, hvs, hds, -⟩ := h
  have hname : Clean (.name o.operation.keyword :: OperationDefinition.namePieces o.name) :=
    clean_name (valid_keyword _) (clean_operationName hn) (opens_operationName _)
  exact clean_append (clean_append (clean_append hname (clean_variables hvs) (opens_variables o))
    (clean_directives hds) (opens_directives _)) (clean_blank rfl clean_nil) (opens_cons rfl _)

theorem opens_selectionSet (o : PrintOptions) (level : Nat) (s : SelectionSet) :
    Opens (s.pieces o level) := by
  match s with
  | ⟨[]⟩ => exact opens_nil
  | ⟨_ :: _⟩ => exact opens_cons rfl _

theorem clean_operationDefinition (options : PrintOptions) (level : Nat)
    {o : OperationDefinition} (h : o.Valid) : Clean (o.pieces options level) := by
  have hset := clean_selectionSet options level h.2.2.2
  rw [OperationDefinition.pieces]
  split
  · exact hset
  · exact clean_append (clean_operationHead h) hset (opens_selectionSet options level _)

theorem clean_fragmentDefinition (o : PrintOptions) (level : Nat) {f : FragmentDefinition}
    (h : f.Valid) : Clean (f.pieces o level) := by
  obtain ⟨hn, -, hc, hds, hset⟩ := h
  have hhead : Clean (.name "fragment" :: .space :: .name f.name.text :: .space ::
      .name "on" :: .space :: f.typeCondition.pieces) :=
    clean_name rfl (clean_blank rfl (clean_name hn (clean_blank rfl (clean_on hc))
      (opens_cons rfl _))) (opens_cons rfl _)
  exact clean_append (clean_append hhead (clean_directives hds) (opens_directives _))
    (clean_blank rfl (clean_selectionSet o level hset)) (opens_cons rfl _)

theorem clean_definition (o : PrintOptions) (level : Nat) {d : Definition} (h : d.Valid) :
    Clean (d.pieces o level) := by
  cases d with
  | operation d => exact clean_operationDefinition o level h
  | fragment f => exact clean_fragmentDefinition o level h

theorem clean_definitions (o : PrintOptions) (level : Nat) {ds : List Definition}
    (h : ∀ d ∈ ds, d.Valid) : Clean (Document.definitionPieces o level ds) := by
  match ds with
  | [] => exact clean_nil
  | [d] => exact clean_definition o level (h d (by simp))
  | d :: e :: ds =>
    have hrest : Clean (Document.definitionPieces o level (e :: ds)) :=
      clean_definitions o level fun x hx => h x (List.mem_cons_of_mem _ hx)
    exact clean_append (clean_definition o level (h d (by simp)))
      (clean_blank rfl (clean_blank rfl hrest)) (opens_cons rfl _)

theorem clean_document (o : PrintOptions) (level : Nat) {d : Document} (h : d.Valid) :
    Clean (d.pieces o level) :=
  clean_append (clean_definitions o level h.2) (clean_blank rfl clean_nil) (opens_cons rfl _)

theorem clean_node (o : PrintOptions) (level : Nat) {n : Node} (h : n.Valid) :
    Clean (n.pieces o level) := by
  match n with
  | .document d => exact clean_document o level h
  | .operationDefinition d => exact clean_operationDefinition o level h
  | .fragmentDefinition f => exact clean_fragmentDefinition o level h
  | .variableDefinition v => exact clean_variableDefinition h
  | .selectionSet s => exact clean_selectionSet o level h
  | .field f => exact clean_field o level h
  | .fragmentSpread s => exact clean_fragmentSpread h
  | .inlineFragment f => exact clean_inlineFragment o level h
  | .argument a => exact clean_argument h
  | .directive d => exact clean_directive h
  | .variable v => exact clean_variable h
  | .name n => exact clean_word h
  | .namedType t => exact clean_word h
  | .typeRef t => exact clean_typeRef h
  | .value v => exact clean_value h
  | .objectField f => exact clean_objectField h

/-- A valid node is scanned as the terminals that it was printed with. -/
theorem lex_printAt (o : PrintOptions) (level : Nat) {n : Node} (h : n.Valid) :
    (lex (n.printAt o level)).map (·.token) = tokensOf (n.pieces o level) := by
  have hneat : Neat (n.pieces o level) := by
    have := clean_node o level h fresh_nil .nil
    rwa [List.append_nil] at this
  rw [lex, Node.printAt, String.toList_ofList]
  exact lexFrom_render hneat

end QueryDoc
