import QueryDoc.Proofs.Tree.Smaller
import QueryDoc.Proofs.Tree.Valid

/-! Rules for every node inside of a tree. The data model has such a rule for each kind of
node; a tree is valid just where they hold throughout it, so whatever is shown of valid trees
is shown of each node in them, and the other way round. -/
namespace QueryDoc

/-! ## All children -/

namespace Child
open IsNode

variable {P : Node → Prop} {α : Type} [IsNode α]

theorem forall_single {slot : Segment} {n : Node} : (∀ c ∈ single slot n, P c.node) ↔ P n :=
  List.forall_mem_singleton

theorem forall_optional {slot : Segment} {a : Option α} :
    (∀ c ∈ optional slot (a.map toNode), P c.node) ↔ ∀ b ∈ a, P (toNode b) := by
  cases a with
  | none => exact ⟨nofun, nofun⟩
  | some a => simp [optional, forall_single]

theorem forall_listFrom {keys : List Segment} {i : Nat} {as : List α} :
    (∀ c ∈ listFrom keys i (as.map toNode), P c.node) ↔ ∀ a ∈ as, P (toNode a) := by
  induction as generalizing i with
  | nil => exact ⟨nofun, nofun⟩
  | cons a as ih => simp only [List.map_cons, listFrom, List.forall_mem_cons, ih]

theorem forall_list {slot : Segment} {as : List α} :
    (∀ c ∈ list slot (as.map toNode), P c.node) ↔ ∀ a ∈ as, P (toNode a) :=
  forall_listFrom

theorem forall_members {as : List α} :
    (∀ c ∈ members (as.map toNode), P c.node) ↔ ∀ a ∈ as, P (toNode a) :=
  forall_listFrom

end Child

/-! ## Nodes inside of a tree -/

namespace Node

/-- A node is in a tree as the tree itself or below one of its children. -/
inductive Inside : Node → Node → Prop where
  | self (n : Node) : Inside n n
  | deeper {m n : Node} {c : Child} : c ∈ n.children → Inside m c.node → Inside m n

theorem Inside.trans {k m n : Node} (hk : k.Inside m) (hm : m.Inside n) : k.Inside n := by
  induction hm with
  | self => exact hk
  | deeper hc _ ih => exact .deeper hc ih

section Inside
open IsNode
variable {α : Type} [IsNode α] {n : Node} {before : List Child}

theorem inside_of_members {as : List α} (hn : n.children = Child.members (as.map toNode)) :
    ∀ a ∈ as, (toNode a).Inside n := by
  rw [← Child.forall_members (P := fun k => k.Inside n), ← hn]
  exact fun c hc => .deeper hc (.self c.node)

theorem inside_of_optional {slot : Segment} {a : Option α}
    (hn : n.children = before ++ Child.optional slot (a.map toNode)) :
    ∀ b ∈ a, (toNode b).Inside n := by
  rw [← Child.forall_optional (P := fun k => k.Inside n)]
  exact fun c hc => .deeper (hn ▸ List.mem_append_right before hc) (.self c.node)

theorem inside_of_single {slot : Segment} {k : Node}
    (hn : n.children = before ++ Child.single slot k) : k.Inside n :=
  .deeper (hn ▸ List.mem_append_right before (List.mem_singleton_self _)) (.self k)

end Inside

/-- A rule that every node of a tree follows. -/
def Throughout (P : Node → Prop) (n : Node) : Prop := ∀ m, m.Inside n → P m

theorem throughout_iff {P : Node → Prop} {n : Node} :
    n.Throughout P ↔ P n ∧ ∀ c ∈ n.children, c.node.Throughout P := by
  constructor
  · intro h
    exact ⟨h n (.self n), fun c hc m hm => h m (.deeper hc hm)⟩
  · rintro ⟨hn, hchildren⟩ m hm
    cases hm with
    | self => exact hn
    | deeper hc hm => exact hchildren _ hc m hm

theorem Throughout.here {P : Node → Prop} {n : Node} (h : n.Throughout P) : P n :=
  h n (.self n)

theorem Throughout.child {P : Node → Prop} {n : Node} {c : Child} (h : n.Throughout P)
    (hc : c ∈ n.children) : c.node.Throughout P :=
  fun m hm => h m (.deeper hc hm)

theorem Throughout.inside {P : Node → Prop} {m n : Node} (h : n.Throughout P) (hm : m.Inside n) :
    m.Throughout P :=
  fun _ hk => h _ (hk.trans hm)

theorem Throughout.mono {P Q : Node → Prop} {n : Node} (h : n.Throughout P)
    (himp : ∀ m, P m → Q m) : n.Throughout Q :=
  fun m hm => himp m (h m hm)

/-- What every node is, given that its children are, holds of all nodes. -/
theorem of_children {P : Node → Prop} (h : ∀ n, (∀ c ∈ n.children, P c.node) → P n) (n : Node) :
    P n :=
  h n fun c _ => of_children h c.node
termination_by sizeOf n
decreasing_by exact sizeOf_child ‹_›

end Node

/-! ## The rules of the data model -/

/-- The rule for a value: numbers are spelled like numbers of their sort, an enum value is
spelled like a name and is none of the words that are values of their own. A variable that
stands as a value has no children, so the rule for its name is here. -/
def Value.Lawful : Value → Prop
  | .int text => Numeral.IsNumber text.toList ∧ Numeral.isFloat text.toList = false
  | .float text => Numeral.IsNumber text.toList ∧ Numeral.isFloat text.toList = true
  | .enum text => Name.Valid ⟨text⟩ ∧ text ∉ Name.reserved
  | .variable v => v.name.Valid
  | .null | .boolean _ | .string .. | .list _ | .object _ => True

/-- The rule for a node: a name is spelled like one, a document and a selection set are not
empty, no fragment has the name `on`, and no type excludes null twice. -/
def Node.Lawful : Node → Prop
  | .name n => n.Valid
  | .document d => d.definitions ≠ []
  | .selectionSet s => s.selections ≠ []
  | .fragmentSpread s => s.name.text ≠ "on"
  | .fragmentDefinition f => f.name.text ≠ "on"
  | .typeRef (.nonNull inner) => ∀ t, inner ≠ .nonNull t
  | .value v => v.Lawful
  | _ => True

/-! ## Validity as a rule throughout a tree -/

theorem Value.validList_iff {vs : List Value} : Value.ValidList vs ↔ ∀ v ∈ vs, v.Valid := by
  induction vs with
  | nil => exact ⟨nofun, fun _ => trivial⟩
  | cons v vs ih => simp only [Value.ValidList, List.forall_mem_cons, ih]

theorem Value.validFields_iff {fs : List ObjectField} :
    Value.ValidFields fs ↔ ∀ f ∈ fs, f.Valid := by
  induction fs with
  | nil => exact ⟨nofun, fun _ => trivial⟩
  | cons f fs ih =>
    obtain ⟨label, v⟩ := f
    rw [List.forall_mem_cons, ← ih]
    exact Iff.rfl

theorem Selection.validList_iff {ss : List Selection} :
    Selection.ValidList ss ↔ ∀ s ∈ ss, s.Valid := by
  induction ss with
  | nil => exact ⟨nofun, fun _ => trivial⟩
  | cons s ss ih => simp only [Selection.ValidList, List.forall_mem_cons, ih]

theorem SelectionSet.validOption_iff {set : Option SelectionSet} :
    SelectionSet.ValidOption set ↔ ∀ s ∈ set, s.Valid := by
  cases set with
  | none => exact ⟨nofun, fun _ => trivial⟩
  | some s => simp [SelectionSet.ValidOption]

namespace Node
open IsNode

theorem valid_ofValue (v : Value) : (toNode v).Valid ↔ v.Valid := by
  cases v <;> rfl

theorem valid_ofTypeRef (t : TypeRef) : (toNode t).Valid ↔ t.Valid := by
  cases t <;> rfl

theorem valid_ofSelection (s : Selection) : (toNode s).Valid ↔ s.Valid := by
  cases s <;> rfl

theorem valid_ofDefinition (d : Definition) : (toNode d).Valid ↔ d.Valid := by
  cases d <;> rfl

/-- A node is valid where it follows its rule and its children are valid. -/
theorem valid_iff_children (n : Node) :
    n.Valid ↔ n.Lawful ∧ ∀ c ∈ n.children, c.node.Valid := by
  match n with
  | .document d =>
    simp only [children, Child.forall_members, valid_ofDefinition]
    simp [Valid, Document.Valid, Lawful]
  | .operationDefinition o =>
    simp only [children, List.forall_mem_append, Child.forall_optional, Child.forall_list,
      Child.forall_single]
    simp [Valid, OperationDefinition.Valid, Lawful, toNode, and_assoc]
  | .fragmentDefinition f =>
    simp only [children, List.forall_mem_append, Child.forall_list, Child.forall_single]
    simp [Valid, FragmentDefinition.Valid, Lawful, toNode, and_assoc, and_left_comm]
  | .variableDefinition v =>
    simp only [children, List.forall_mem_append, Child.forall_optional, Child.forall_list,
      Child.forall_single, valid_ofTypeRef, valid_ofValue]
    simp [Valid, VariableDefinition.Valid, Lawful, toNode, and_assoc]
  | .selectionSet ⟨ss⟩ =>
    simp only [children, Child.forall_members, valid_ofSelection]
    simp [Valid, SelectionSet.Valid, Lawful, Selection.validList_iff]
  | .field ⟨aliasName, label, arguments, dirs, set⟩ =>
    simp only [children, List.forall_mem_append, Child.forall_optional, Child.forall_list,
      Child.forall_single]
    simp [Valid, Field.Valid, Lawful, toNode, SelectionSet.validOption_iff, and_assoc]
  | .fragmentSpread s =>
    simp only [children, List.forall_mem_append, Child.forall_list, Child.forall_single]
    simp [Valid, FragmentSpread.Valid, Lawful, toNode, and_left_comm]
  | .inlineFragment ⟨condition, dirs, set⟩ =>
    simp only [children, List.forall_mem_append, Child.forall_optional, Child.forall_list,
      Child.forall_single]
    simp [Valid, InlineFragment.Valid, Lawful, toNode, and_assoc]
  | .argument a =>
    simp only [children, List.forall_mem_append, Child.forall_single, valid_ofValue]
    simp [Valid, Argument.Valid, Lawful, toNode]
  | .directive d =>
    simp only [children, List.forall_mem_append, Child.forall_list, Child.forall_single]
    simp [Valid, Directive.Valid, Lawful, toNode]
  | .variable v =>
    simp only [children, Child.forall_single]
    simp [Valid, Variable.Valid, Lawful, toNode]
  | .name n => simp [Valid, Lawful, children]
  | .namedType t =>
    simp only [children, Child.forall_single]
    simp [Valid, NamedType.Valid, Lawful, toNode]
  | .typeRef t =>
    cases t <;> simp only [children, childrenOfTypeRef, Child.forall_single, valid_ofTypeRef] <;>
      simp [Valid, TypeRef.Valid, NamedType.Valid, Lawful, and_comm]
  | .value v =>
    cases v <;> simp only [children, childrenOfValue, Child.forall_members, valid_ofValue] <;>
      simp [Valid, Value.Valid, Variable.Valid, Lawful, Value.Lawful, toNode, Value.validList_iff,
        Value.validFields_iff]
  | .objectField f =>
    simp only [children, List.forall_mem_append, Child.forall_single, valid_ofValue]
    simp [Valid, ObjectField.Valid, Lawful, toNode]

/-- A tree is valid where the rules of the data model hold throughout it. -/
theorem valid_iff_throughout (n : Node) : n.Valid ↔ n.Throughout Lawful := by
  refine of_children (P := fun n => n.Valid ↔ n.Throughout Lawful) (fun n ih => ?_) n
  rw [valid_iff_children, throughout_iff, and_congr_right_iff]
  intro _
  exact forall₂_congr ih

end Node
end QueryDoc
