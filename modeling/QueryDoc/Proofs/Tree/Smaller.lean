import QueryDoc.Tree.Children

/-! Children are smaller than the node that holds them, so a walk that puts nothing else in
the place of a node comes to an end. -/
namespace QueryDoc

namespace Child

theorem mem_listFrom {c : Child} {slot : List Segment} {i : Nat} {ns : List Node}
    (h : c ∈ listFrom slot i ns) : c.node ∈ ns := by
  induction ns generalizing i with
  | nil => cases h
  | cons n ns ih =>
    rcases List.mem_cons.mp h with rfl | h
    · exact List.mem_cons_self
    · exact List.mem_cons_of_mem n (ih h)

theorem node_of_mem_single {c : Child} {slot : Segment} {n : Node} (h : c ∈ single slot n) :
    c.node = n := by
  rw [List.mem_singleton.mp h]

theorem node_of_mem_optional {c : Child} {slot : Segment} {n : Option Node}
    (h : c ∈ optional slot n) : n = some c.node := by
  cases n with
  | none => cases h
  | some n => rw [node_of_mem_single h]

theorem sizeOf_node_le {c : Child} {cs : List Child} (h : c ∈ cs) :
    sizeOf c.node ≤ sizeOf cs := by
  have hmem := List.sizeOf_lt_of_mem h
  have hchild : sizeOf c = 1 + sizeOf c.key + sizeOf c.node := by cases c; rfl
  omega

end Child

/-! ## Parts as nodes -/

section Parts
open IsNode

/-- A part of a tree whose node is as large as the part and one constructor more. -/
class Sized (α : Type) [IsNode α] [SizeOf α] : Prop where
  sizeOf_toNode : ∀ a : α, sizeOf (toNode a) ≤ 1 + sizeOf a

instance : Sized Name := ⟨fun _ => Nat.le_refl _⟩
instance : Sized Variable := ⟨fun _ => Nat.le_refl _⟩
instance : Sized NamedType := ⟨fun _ => Nat.le_refl _⟩
instance : Sized Argument := ⟨fun _ => Nat.le_refl _⟩
instance : Sized ObjectField := ⟨fun _ => Nat.le_refl _⟩
instance : Sized Directive := ⟨fun _ => Nat.le_refl _⟩
instance : Sized SelectionSet := ⟨fun _ => Nat.le_refl _⟩
instance : Sized VariableDefinition := ⟨fun _ => Nat.le_refl _⟩

instance : Sized Value := ⟨fun v => by
  cases v <;> simp [toNode, Node.ofValue]⟩

instance : Sized TypeRef := ⟨fun t => by
  cases t <;> simp [toNode, Node.ofTypeRef]⟩

instance : Sized Selection := ⟨fun s => by
  cases s <;> simp [toNode, Node.ofSelection]⟩

instance : Sized Definition := ⟨fun d => by
  cases d <;> simp [toNode, Node.ofDefinition]⟩

/-- No node of these children is larger than a bound. -/
def Within (bound : Nat) (cs : List Child) : Prop := ∀ c ∈ cs, sizeOf c.node ≤ bound

variable {α : Type} [IsNode α] [SizeOf α] [Sized α] {bound : Nat}

theorem Within.append {cs ds : List Child} (hc : Within bound cs) (hd : Within bound ds) :
    Within bound (cs ++ ds) := by
  intro c h
  rcases List.mem_append.mp h with h | h
  · exact hc c h
  · exact hd c h

theorem within_single (slot : Segment) (a : α) (h : 1 + sizeOf a ≤ bound) :
    Within bound (Child.single slot (toNode a)) := by
  intro c hc
  rw [Child.node_of_mem_single hc]
  exact Nat.le_trans (Sized.sizeOf_toNode a) h

theorem within_optional (slot : Segment) (a : Option α) (h : sizeOf a ≤ bound) :
    Within bound (Child.optional slot (a.map toNode)) := by
  intro c hc
  obtain ⟨a, rfl, hnode⟩ := Option.map_eq_some_iff.mp (Child.node_of_mem_optional hc)
  rw [← hnode]
  exact Nat.le_trans (Sized.sizeOf_toNode a) h

/-- A list is larger than its members by more than the constructor around a node. -/
theorem within_listFrom (keys : List Segment) (i : Nat) (as : List α) (h : sizeOf as ≤ bound) :
    Within bound (Child.listFrom keys i (as.map toNode)) := by
  intro c hc
  obtain ⟨a, ha, hnode⟩ := List.mem_map.mp (Child.mem_listFrom hc)
  rw [← hnode]
  have hsize := Sized.sizeOf_toNode a
  have hlist := List.sizeOf_lt_of_mem ha
  omega

end Parts

namespace Node
open IsNode

theorem within_children (n : Node) : Within (sizeOf n - 1) n.children := by
  match n with
  | .document ⟨definitions⟩ => exact within_listFrom _ _ definitions (by simp)
  | .operationDefinition ⟨_, label, declared, dirs, set⟩ =>
    exact (((within_optional _ label (by simp; omega)).append
      (within_listFrom _ _ declared (by simp; omega))).append
      (within_listFrom _ _ dirs (by simp; omega))).append
      (within_single _ set (by simp; omega))
  | .fragmentDefinition ⟨label, condition, dirs, set⟩ =>
    exact (((within_single _ label (by simp; omega)).append
      (within_single _ condition (by simp; omega))).append
      (within_listFrom _ _ dirs (by simp; omega))).append
      (within_single _ set (by simp; omega))
  | .variableDefinition ⟨declared, type, defaultValue, dirs⟩ =>
    exact (((within_single _ declared (by simp; omega)).append
      (within_single _ type (by simp; omega))).append
      (within_optional _ defaultValue (by simp; omega))).append
      (within_listFrom _ _ dirs (by simp))
  | .selectionSet ⟨selections⟩ => exact within_listFrom _ _ selections (by simp)
  | .field ⟨aliasName, label, arguments, dirs, set⟩ =>
    exact ((((within_optional _ aliasName (by simp; omega)).append
      (within_single _ label (by simp; omega))).append
      (within_listFrom _ _ arguments (by simp; omega))).append
      (within_listFrom _ _ dirs (by simp; omega))).append
      (within_optional _ set (by simp))
  | .fragmentSpread ⟨label, dirs⟩ =>
    exact (within_single _ label (by simp)).append
      (within_listFrom _ _ dirs (by simp))
  | .inlineFragment ⟨condition, dirs, set⟩ =>
    exact ((within_optional _ condition (by simp; omega)).append
      (within_listFrom _ _ dirs (by simp; omega))).append
      (within_single _ set (by simp; omega))
  | .argument ⟨label, literal⟩ =>
    exact (within_single _ label (by simp)).append
      (within_single _ literal (by simp))
  | .directive ⟨label, arguments⟩ =>
    exact (within_single _ label (by simp)).append
      (within_listFrom _ _ arguments (by simp))
  | .variable ⟨label⟩ => exact within_single _ label (by simp)
  | .name _ =>
    intro c h
    cases h
  | .namedType ⟨label⟩ => exact within_single _ label (by simp)
  | .typeRef (.named ⟨label⟩) => exact within_single _ label (by simp)
  | .typeRef (.list item) => exact within_single _ item (by simp)
  | .typeRef (.nonNull inner) => exact within_single _ inner (by simp)
  | .value (.list values) => exact within_listFrom _ _ values (by simp)
  | .value (.object fields) => exact within_listFrom _ _ fields (by simp)
  | .value .null | .value (.boolean _) | .value (.int _) | .value (.float _)
  | .value (.string ..) | .value (.enum _) | .value (.variable _) =>
    intro c h
    cases h
  | .objectField ⟨label, literal⟩ =>
    exact (within_single _ label (by simp)).append
      (within_single _ literal (by simp))

theorem sizeOf_pos (n : Node) : 0 < sizeOf n := by
  cases n <;> exact Nat.lt_of_lt_of_le Nat.one_pos (Nat.le_add_right 1 _)

/-- A child is smaller than its parent. -/
theorem sizeOf_child {n : Node} {c : Child} (h : c ∈ n.children) : sizeOf c.node < sizeOf n := by
  have hchild := within_children n c h
  have hpositive := n.sizeOf_pos
  omega

end Node
end QueryDoc
