import QueryDoc.Proofs.Tree.Slots

/-! Documents without some of their fields. Where a field is left out, everything below it is
left out with it, the selections around it keep their order, and the rest stays as it is. What
is left holds the same in each of its fields, except for the fields that are gone. -/
namespace QueryDoc
open IsNode

/-- A question about a field that its alias and its name answer. -/
abbrev FieldTest := Option Name → Name → Bool

variable {p : FieldTest}

/-! ## Leaving fields out -/

/-- Whether a selection is a field that is left out. -/
def Selection.drops (p : FieldTest) : Selection → Bool
  | .field f => p f.aliasName f.name
  | .fragmentSpread _ | .inlineFragment _ => false

mutual

/-- A selection without the fields below it that are left out. -/
def Selection.without (p : FieldTest) : Selection → Selection
  | .field f => .field (Field.without p f)
  | .fragmentSpread s => .fragmentSpread s
  | .inlineFragment f => .inlineFragment (InlineFragment.without p f)

def Field.without (p : FieldTest) : Field → Field
  | ⟨aliasName, name, arguments, directives, set⟩ =>
    ⟨aliasName, name, arguments, directives, SelectionSet.withoutOption p set⟩

def InlineFragment.without (p : FieldTest) : InlineFragment → InlineFragment
  | ⟨condition, directives, set⟩ => ⟨condition, directives, SelectionSet.without p set⟩

def SelectionSet.without (p : FieldTest) : SelectionSet → SelectionSet
  | ⟨ss⟩ => ⟨Selection.withoutList p ss⟩

def SelectionSet.withoutOption (p : FieldTest) : Option SelectionSet → Option SelectionSet
  | none => none
  | some set => some (SelectionSet.without p set)

def Selection.withoutList (p : FieldTest) : List Selection → List Selection
  | [] => []
  | s :: ss =>
    if s.drops p then Selection.withoutList p ss
    else Selection.without p s :: Selection.withoutList p ss

end

/-- Selections without fields are those that stay, each of them without fields. -/
theorem Selection.withoutList_eq (ss : List Selection) :
    Selection.withoutList p ss = (ss.filter (!·.drops p)).map (·.without p) := by
  induction ss with
  | nil => rw [Selection.withoutList, List.filter_nil, List.map_nil]
  | cons s ss ih =>
    rw [Selection.withoutList, ih]
    cases hs : s.drops p with
    | true => simp [hs]
    | false => simp [hs]

def Definition.without (p : FieldTest) : Definition → Definition
  | .operation o => .operation { o with selectionSet := o.selectionSet.without p }
  | .fragment f => .fragment { f with selectionSet := f.selectionSet.without p }

/-- A document without the fields, at any depth, of which a test is true. -/
def Document.without (p : FieldTest) (d : Document) : Document :=
  ⟨d.definitions.map (·.without p)⟩

namespace Node

/-- Whether a node is a field that is left out. -/
def drops (p : FieldTest) : Node → Bool
  | .field f => p f.aliasName f.name
  | _ => false

def without (p : FieldTest) : Node → Node
  | .document d => .document (d.without p)
  | .operationDefinition o =>
    .operationDefinition { o with selectionSet := o.selectionSet.without p }
  | .fragmentDefinition f =>
    .fragmentDefinition { f with selectionSet := f.selectionSet.without p }
  | .selectionSet s => .selectionSet (s.without p)
  | .field f => .field (f.without p)
  | .inlineFragment f => .inlineFragment (f.without p)
  | n => n

theorem alike_without (n : Node) : (n.without p).Alike n := by
  cases n <;> exact ⟨rfl, rfl, rfl⟩

theorem drops_without (n : Node) : (n.without p).drops p = n.drops p := by
  cases n with
  | field f =>
    obtain ⟨aliasName, name, arguments, directives, set⟩ := f
    simp only [without, Field.without, drops]
  | _ => rfl

theorem drops_toNode (s : Selection) : (toNode s).drops p = s.drops p := by
  cases s <;> rfl

theorem without_toNode (s : Selection) : (toNode s).without p = toNode (s.without p) := by
  cases s <;> simp only [Selection.without, toNode, ofSelection, without]

/-! ## What is left in the fields of a node -/

/-- What is left of children. -/
def remnants (p : FieldTest) (cs : List Child) : List (Option Segment × Node) :=
  (cs.filter (!·.node.drops p)).map fun c => (c.field?, c.node.without p)

theorem remnants_cons (c : Child) (cs : List Child) :
    remnants p (c :: cs) =
      if c.node.drops p then remnants p cs else (c.field?, c.node.without p) :: remnants p cs := by
  cases hc : c.node.drops p with
  | true => simp [remnants, hc]
  | false => simp [remnants, hc]

theorem remnants_append (cs ds : List Child) :
    remnants p (cs ++ ds) = remnants p cs ++ remnants p ds := by
  rw [remnants, List.filter_append, List.map_append]
  rfl

/-- A node is neither left out nor has anything below it that is. -/
def Untouched (p : FieldTest) (n : Node) : Prop := n.drops p = false ∧ n.without p = n

theorem untouched_value (v : Value) : Untouched p (toNode v) := by
  cases v <;> exact ⟨rfl, rfl⟩

theorem untouched_typeRef (t : TypeRef) : Untouched p (toNode t) := by
  cases t <;> exact ⟨rfl, rfl⟩

theorem remnants_of_untouched {cs : List Child} (h : ∀ c ∈ cs, Untouched p c.node) :
    remnants p cs = cs.map Child.holding := by
  induction cs with
  | nil => rfl
  | cons c cs ih =>
    obtain ⟨hdrops, hwithout⟩ := h c List.mem_cons_self
    rw [remnants_cons, hdrops, hwithout, ih fun d hd => h d (List.mem_cons_of_mem c hd)]
    rfl

/-- Of children that end with a block of others, only those in the block may be left out. -/
theorem remnants_block {cs ds ds' : List Child} (h : ∀ c ∈ cs, Untouched p c.node)
    (hblock : remnants p ds = ds'.map Child.holding) :
    remnants p (cs ++ ds) = (cs ++ ds').map Child.holding := by
  rw [remnants_append, List.map_append, remnants_of_untouched h, hblock]

/-- What is left of members that are left out or not, each by itself. -/
theorem remnants_listFrom {α : Type} [IsNode α] {drops : α → Bool} {without : α → α}
    (hdrops : ∀ a, (toNode a).drops p = drops a)
    (hwithout : ∀ a, (toNode a).without p = toNode (without a)) (keys : List Segment) (i j : Nat)
    (as : List α) :
    remnants p (Child.listFrom keys i (as.map toNode)) =
      (Child.listFrom keys j (((as.filter (!drops ·)).map without).map toNode)).map
        Child.holding := by
  induction as generalizing i j with
  | nil => rfl
  | cons a as ih =>
    rw [List.map_cons, Child.listFrom, remnants_cons, hdrops]
    cases ha : drops a with
    | true =>
      rw [List.filter_cons_of_neg (by simp [ha])]
      exact ih (i + 1) j
    | false =>
      rw [List.filter_cons_of_pos (by simp [ha]), hwithout, Child.field?_member,
        ih (i + 1) (j + 1), ← Child.field?_member keys j]
      rfl

theorem remnants_selections (keys : List Segment) (i j : Nat) (ss : List Selection) :
    remnants p (Child.listFrom keys i (ss.map toNode)) =
      (Child.listFrom keys j ((Selection.withoutList p ss).map toNode)).map Child.holding := by
  rw [Selection.withoutList_eq]
  exact remnants_listFrom drops_toNode without_toNode keys i j ss

theorem remnants_definitions (keys : List Segment) (i : Nat) (ds : List Definition) :
    remnants p (Child.listFrom keys i (ds.map toNode)) =
      (Child.listFrom keys i ((ds.map (·.without p)).map toNode)).map Child.holding := by
  have hdrops (d : Definition) : (toNode d).drops p = false := by cases d <;> rfl
  have hwithout (d : Definition) : (toNode d).without p = toNode (d.without p) := by
    cases d <;> rfl
  have hall : ds.filter (fun _ => !false) = ds := List.filter_eq_self.mpr fun _ _ => rfl
  have h := remnants_listFrom hdrops hwithout keys i i ds
  rwa [hall] at h

theorem remnants_optional (slot : Segment) (set : Option SelectionSet) :
    remnants p (Child.optional slot (set.map toNode)) =
      (Child.optional slot ((SelectionSet.withoutOption p set).map toNode)).map Child.holding := by
  cases set <;> rfl

theorem holdings_of_untouched {n : Node} (hn : n.without p = n)
    (h : ∀ c ∈ n.children, Untouched p c.node) :
    (n.without p).holdings = remnants p n.children := by
  rw [hn, holdings, remnants_of_untouched h]

/-- The children of a node that is left are what is left of its children. -/
theorem holdings_without (n : Node) : (n.without p).holdings = remnants p n.children := by
  match n with
  | .document d => exact (remnants_definitions [] 0 d.definitions).symm
  | .selectionSet ⟨ss⟩ => exact (remnants_selections [] 0 0 ss).symm
  | .operationDefinition o =>
    refine (remnants_block ?_ rfl).symm
    simp only [List.forall_mem_append, Child.forall_optional, Child.forall_list]
    exact ⟨⟨fun _ _ => ⟨rfl, rfl⟩, fun _ _ => ⟨rfl, rfl⟩⟩, fun _ _ => ⟨rfl, rfl⟩⟩
  | .fragmentDefinition f =>
    refine (remnants_block ?_ rfl).symm
    simp only [List.forall_mem_append, Child.forall_single, Child.forall_list]
    exact ⟨⟨⟨rfl, rfl⟩, ⟨rfl, rfl⟩⟩, fun _ _ => ⟨rfl, rfl⟩⟩
  | .field ⟨_, _, _, _, set⟩ =>
    refine (remnants_block ?_ (remnants_optional .selectionSet set)).symm
    simp only [List.forall_mem_append, Child.forall_optional, Child.forall_single,
      Child.forall_list]
    exact ⟨⟨⟨fun _ _ => ⟨rfl, rfl⟩, ⟨rfl, rfl⟩⟩, fun _ _ => ⟨rfl, rfl⟩⟩, fun _ _ => ⟨rfl, rfl⟩⟩
  | .inlineFragment ⟨_, _, set⟩ =>
    refine (remnants_block ?_ rfl).symm
    simp only [List.forall_mem_append, Child.forall_optional, Child.forall_list]
    exact ⟨fun _ _ => ⟨rfl, rfl⟩, fun _ _ => ⟨rfl, rfl⟩⟩
  -- No other node has fields below it that are not in a selection set.
  | .variableDefinition v =>
    refine holdings_of_untouched rfl ?_
    simp only [children, List.forall_mem_append, Child.forall_single, Child.forall_optional,
      Child.forall_list]
    exact ⟨⟨⟨⟨rfl, rfl⟩, untouched_typeRef _⟩, fun _ _ => untouched_value _⟩,
      fun _ _ => ⟨rfl, rfl⟩⟩
  | .fragmentSpread s =>
    refine holdings_of_untouched rfl ?_
    simp only [children, List.forall_mem_append, Child.forall_single, Child.forall_list]
    exact ⟨⟨rfl, rfl⟩, fun _ _ => ⟨rfl, rfl⟩⟩
  | .directive d =>
    refine holdings_of_untouched rfl ?_
    simp only [children, List.forall_mem_append, Child.forall_single, Child.forall_list]
    exact ⟨⟨rfl, rfl⟩, fun _ _ => ⟨rfl, rfl⟩⟩
  | .argument a =>
    refine holdings_of_untouched rfl ?_
    simp only [children, List.forall_mem_append, Child.forall_single]
    exact ⟨⟨rfl, rfl⟩, untouched_value _⟩
  | .objectField f =>
    refine holdings_of_untouched rfl ?_
    simp only [children, List.forall_mem_append, Child.forall_single]
    exact ⟨⟨rfl, rfl⟩, untouched_value _⟩
  | .variable _ | .namedType _ | .typeRef (.named _) => rfl
  | .typeRef (.list t) | .typeRef (.nonNull t) =>
    exact holdings_of_untouched rfl (Child.forall_single.mpr (untouched_typeRef t))
  | .value (.list vs) =>
    exact holdings_of_untouched rfl (Child.forall_members.mpr fun v _ => untouched_value v)
  | .value (.object fs) =>
    exact holdings_of_untouched rfl (Child.forall_members.mpr fun _ _ => ⟨rfl, rfl⟩)
  | .name _ | .value .null | .value (.boolean _) | .value (.int _) | .value (.float _)
  | .value (.string ..) | .value (.enum _) | .value (.variable _) => rfl

theorem length_remnants_le (cs : List Child) : (remnants p cs).length ≤ cs.length := by
  rw [remnants, List.length_map]
  exact List.length_filter_le _ _

theorem untouched_of_remnants {cs : List Child} (h : remnants p cs = cs.map Child.holding) :
    ∀ c ∈ cs, Untouched p c.node := by
  induction cs with
  | nil => exact List.forall_mem_nil _
  | cons c cs ih =>
    rw [remnants_cons] at h
    cases hc : c.node.drops p with
    | true =>
      -- One child less is left, and no other one makes up for it.
      rw [hc, if_pos rfl] at h
      have hlength := length_remnants_le (p := p) cs
      rw [h, List.length_map, List.length_cons] at hlength
      omega
    | false =>
      rw [hc, if_neg Bool.false_ne_true, List.map_cons, List.cons.injEq] at h
      exact List.forall_mem_cons.mpr ⟨⟨hc, (Prod.ext_iff.mp h.1).2⟩, ih h.2⟩

/-- A node stays as it is where nothing is left out directly below it or further down. -/
theorem without_eq_self_iff {n : Node} :
    n.without p = n ↔ ∀ c ∈ n.children, Untouched p c.node := by
  constructor
  · intro h
    apply untouched_of_remnants
    rw [← holdings_without, h, holdings]
  · intro h
    apply (alike_without n).eq_of_holdings
    rw [holdings_without, remnants_of_untouched h, holdings]

theorem child_of_without {n : Node} {c : Child} (h : c ∈ (n.without p).children) :
    ∃ d ∈ n.children, d.node.drops p = false ∧ c.node = d.node.without p := by
  have hmem : c.holding ∈ (n.without p).holdings := List.mem_map_of_mem h
  rw [holdings_without, remnants, List.mem_map] at hmem
  obtain ⟨d, hd, heq⟩ := hmem
  obtain ⟨hd, hdrops⟩ := List.mem_filter.mp hd
  exact ⟨d, hd, by simpa using hdrops, (Prod.ext_iff.mp heq).2.symm⟩

theorem child_without {n : Node} {c : Child} (hc : c ∈ n.children)
    (hdrops : c.node.drops p = false) :
    ∃ d ∈ (n.without p).children, d.node = c.node.without p := by
  have hmem : (c.field?, c.node.without p) ∈ (n.without p).holdings := by
    rw [holdings_without, remnants, List.mem_map]
    exact ⟨c, List.mem_filter.mpr ⟨hc, by simp [hdrops]⟩, rfl⟩
  obtain ⟨d, hd, heq⟩ := List.mem_map.mp hmem
  exact ⟨d, hd, (Prod.ext_iff.mp heq).2⟩

/-- What was left out once is not there to be left out again. -/
theorem without_without (n : Node) : (n.without p).without p = n.without p := by
  induction n using of_children with
  | h n ih =>
    refine without_eq_self_iff.mpr fun c hc => ?_
    obtain ⟨d, hd, hdrops, hcd⟩ := child_of_without hc
    rw [hcd]
    exact ⟨(drops_without d.node).trans hdrops, ih d hd⟩

/-- A node is in a tree, and no node on the way down to it is a field that is left out. -/
inductive Reached (p : FieldTest) : Node → Node → Prop where
  | here (n : Node) : Reached p n n
  | deeper {m n : Node} {c : Child} :
      c ∈ n.children → c.node.drops p = false → Reached p m c.node → Reached p m n

theorem Reached.inside {m n : Node} (h : Reached p m n) : m.Inside n := by
  induction h with
  | here => exact .self m
  | deeper hc _ _ ih => exact .deeper hc ih

/-- Just the nodes that are reached are left in a tree without fields. -/
theorem inside_without_iff {m n : Node} :
    m.Inside (n.without p) ↔ ∃ k, Reached p k n ∧ m = k.without p := by
  constructor
  · intro h
    induction n using of_children generalizing m with
    | h n ih =>
      generalize hn : n.without p = root at h
      cases h with
      | self => exact ⟨n, .here n, hn.symm⟩
      | deeper hc hm =>
        rw [← hn] at hc
        obtain ⟨d, hd, hdrops, hcd⟩ := child_of_without hc
        rw [hcd] at hm
        obtain ⟨k, hk, hmk⟩ := ih d hd hm
        exact ⟨k, .deeper hd hdrops hk, hmk⟩
  · rintro ⟨k, hk, rfl⟩
    induction hk with
    | here => exact .self _
    | deeper hc hdrops _ ih =>
      obtain ⟨d, hd, hcd⟩ := child_without hc hdrops
      refine .deeper hd ?_
      rw [hcd]
      exact ih

/-! ## Rebuilding a node without fields -/

/-- The entries for children of which some are left out. -/
def left (p : FieldTest) (cs : List Child) : List (Option Node) :=
  cs.map fun c => if c.node.drops p then none else some (c.node.without p)

theorem plain_without {k : Node} (h : k.plain = k) : (k.without p).plain = k.without p := by
  cases k with
  | value _ | typeRef _ => exact h
  | _ => rfl

theorem kept_left {cs : List Child} (h : ∀ c ∈ cs, c.node.plain = c.node) :
    Refill.kept cs (left p cs) = remnants p cs := by
  induction cs with
  | nil => exact Refill.kept_nil
  | cons c cs ih =>
    rw [left, List.map_cons, Refill.kept_cons, remnants_cons]
    rw [left] at ih
    rw [ih fun d hd => h d (List.mem_cons_of_mem c hd)]
    cases c.node.drops p with
    | true => rfl
    | false => simp [plain_without (h c List.mem_cons_self)]

/-- Where a node fits, it also fits without fields. -/
theorem admits_without {n k : Node} {field : Option Segment} (h : n.Admits field k) :
    n.Admits field (k.without p) := by
  cases field with
  | some slot => cases slot <;> cases k <;> exact h
  | none =>
    cases n with
    | document _ | selectionSet _ => cases k <;> exact h
    | value v =>
      cases v with
      | list _ | object _ => cases k <;> exact h
      | _ => exact h
    | _ => exact h

/-- A field is never a child that its parent cannot do without. -/
theorem requires_of_drops {n k : Node} {field : Option Segment} (h : n.Admits field k)
    (hdrops : k.drops p = true) : n.requires field = false := by
  cases k with
  | field f =>
    cases field with
    | none => rfl
    | some slot =>
      cases slot with
      | aliasName | defaultValue | arguments | directives | variableDefinitions | index _ => rfl
      | _ => cases h
  | _ => cases hdrops

theorem suits_left {n : Node} (hkind : n.kind ≠ .nonNullType)
    (hset : n.shape = .selectionSet → ∃ c ∈ n.children, c.node.drops p = false) :
    n.Suits (left p n.children) := by
  refine ⟨fun q hq => ?_, fun hshape => ?_, fun hk => absurd hk hkind⟩
  · have hzip : n.children.zip (left p n.children) = n.children.map fun c =>
        (c, if c.node.drops p then none else some (c.node.without p)) := by
      simpa [left] using List.zip_map' (f := id) (l := n.children)
    rw [hzip] at hq
    obtain ⟨c, hc, rfl⟩ := List.mem_map.mp hq
    have hadmits := n.admits_child c hc
    cases hdrops : c.node.drops p with
    | true => exact requires_of_drops hadmits hdrops
    | false => exact admits_without hadmits
  · obtain ⟨c, hc, hdrops⟩ := hset hshape
    refine ⟨c.node.without p, List.mem_map.mpr ⟨c, hc, ?_⟩⟩
    rw [hdrops, if_neg Bool.false_ne_true]

/-- A node is rebuilt without the fields that are left out, unless no selection would be left. -/
theorem refill_left {n : Node} (hkind : n.kind ≠ .nonNullType)
    (hset : n.shape = .selectionSet → ∃ c ∈ n.children, c.node.drops p = false) :
    n.refill (left p n.children) = .ok (n.without p) := by
  have hlength : (left p n.children).length = n.children.length := List.length_map _
  obtain ⟨m, hm⟩ := (refill_ok_iff hlength).mpr (suits_left hkind hset)
  have hm' : m = n.without p := by
    refine ((alike_refill hm).trans (alike_without n).symm).eq_of_holdings ?_
    rw [holdings_refill hm, kept_left n.plain_child, holdings_without]
  rw [hm, hm']

theorem takes_list_none {α : Type} [IsNode α] {entries : List (Option Node)}
    (h : ∀ entry ∈ entries, entry = none) :
    Refill.Takes (Refill.list α entries.length) entries [] [] := by
  induction entries with
  | nil => rfl
  | cons entry entries ih =>
    obtain ⟨rfl, hrest⟩ := List.forall_mem_cons.mp h
    exact Refill.takes_bind.mpr ⟨none, entries, rfl, ih hrest⟩

/-- A selection set with fields only that are left out cannot be rebuilt. -/
theorem refill_emptied {s : SelectionSet}
    (h : ∀ c ∈ (selectionSet s).children, c.node.drops p = true) :
    (selectionSet s).refill (left p (selectionSet s).children) = .error .emptiedSelectionSet := by
  have hnone : ∀ entry ∈ left p (selectionSet s).children, entry = none := by
    intro entry hentry
    obtain ⟨c, hc, rfl⟩ := List.mem_map.mp hentry
    rw [h c hc, if_pos rfl]
  have hread := takes_list_none (α := Selection) hnone
  have hlength : (left p (selectionSet s).children).length = s.selections.length := by
    simp only [left, children, Child.members, List.length_map, Child.length_listFrom]
  rw [hlength] at hread
  exact Refill.refill_error (Refill.error_bind (Refill.selections_error hread))

end Node
end QueryDoc
