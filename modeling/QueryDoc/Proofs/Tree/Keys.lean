import Mathlib.Data.List.Nodup
import Mathlib.Data.List.Perm.Basic
import Mathlib.Data.List.Pairwise
import QueryDoc.Proofs.Tree.Inside

/-! The keys of children and what they name. The keys that a node has for its children are
such that none begins with another one, so the segments on the way down to a node, one key
after the other, belong to no other node of the tree, and whoever follows them from the root
comes to that node. -/
namespace QueryDoc

/-! ## The keys of one node -/

namespace Child

/-- Neither of two keys begins with the other one. -/
def Apart (c d : Child) : Prop := ∀ x y, c.key ++ x ≠ d.key ++ y

instance : Std.Symm Apart := ⟨fun _ _ h x y hkey => h y x hkey.symm⟩

/-- Children that can be told apart by the beginning of a path. -/
structure Keyed (cs : List Child) : Prop where
  apart : cs.Pairwise Apart
  nonempty : ∀ c ∈ cs, c.key ≠ []

theorem Keyed.eq_of_append {cs : List Child} (h : Keyed cs) {c d : Child} (hc : c ∈ cs)
    (hd : d ∈ cs) {x y : List Segment} (hkey : c.key ++ x = d.key ++ y) : c = d := by
  by_contra hne
  exact h.apart.forall hc hd hne x y hkey

theorem Keyed.nodup {cs : List Child} (h : Keyed cs) : cs.Nodup :=
  h.apart.imp fun hapart hsame => hapart [] [] (by rw [hsame])

theorem keyed_nil : Keyed [] := ⟨.nil, nofun⟩

theorem key_of_mem_listFrom {keys : List Segment} {i : Nat} {ns : List Node} {c : Child}
    (h : c ∈ listFrom keys i ns) : ∃ j, i ≤ j ∧ c.key = keys ++ [.index j] := by
  induction ns generalizing i with
  | nil => cases h
  | cons n ns ih =>
    rcases List.mem_cons.mp h with rfl | h
    · exact ⟨i, Nat.le_refl i, rfl⟩
    · obtain ⟨j, hj, hkey⟩ := ih h
      exact ⟨j, by omega, hkey⟩

theorem keyed_listFrom (keys : List Segment) (i : Nat) (ns : List Node) :
    Keyed (listFrom keys i ns) := by
  constructor
  · induction ns generalizing i with
    | nil => exact .nil
    | cons n ns ih =>
      refine .cons (fun d hd x y hkey => ?_) (ih (i + 1))
      -- The positions of the children that follow are larger.
      obtain ⟨j, hj, hdkey⟩ := key_of_mem_listFrom hd
      rw [hdkey, List.append_assoc, List.append_assoc, List.append_cancel_left_eq] at hkey
      cases hkey
      omega
  · intro c hc
    obtain ⟨j, -, hkey⟩ := key_of_mem_listFrom hc
    rw [hkey]
    exact List.append_ne_nil_of_right_ne_nil _ (List.cons_ne_nil _ _)

/-- Children that can be told apart, all of them in some slots. -/
structure Slotted (slots : List Segment) (cs : List Child) : Prop extends Keyed cs where
  slot : ∀ c ∈ cs, ∃ slot ∈ slots, ∃ rest, c.key = slot :: rest

theorem slotted_single (slot : Segment) (n : Node) : Slotted [slot] (single slot n) where
  apart := List.pairwise_singleton _ _
  nonempty := List.forall_mem_singleton.mpr (List.cons_ne_nil _ _)
  slot := List.forall_mem_singleton.mpr ⟨slot, List.mem_singleton_self slot, [], rfl⟩

theorem slotted_optional (slot : Segment) (n : Option Node) :
    Slotted [slot] (optional slot n) := by
  cases n with
  | none => exact ⟨keyed_nil, nofun⟩
  | some n => exact slotted_single slot n

theorem slotted_list (slot : Segment) (ns : List Node) : Slotted [slot] (list slot ns) where
  toKeyed := keyed_listFrom [slot] 0 ns
  slot c hc := by
    obtain ⟨j, -, hkey⟩ := key_of_mem_listFrom hc
    exact ⟨slot, List.mem_singleton_self slot, [.index j], hkey⟩

theorem Slotted.append {slots slots' : List Segment} {cs ds : List Child} (h : Slotted slots cs)
    (h' : Slotted slots' ds) (hslots : ∀ slot ∈ slots, slot ∉ slots') :
    Slotted (slots ++ slots') (cs ++ ds) where
  apart := by
    refine List.pairwise_append.mpr ⟨h.apart, h'.apart, fun c hc d hd x y hkey => ?_⟩
    obtain ⟨slot, hslot, rest, hckey⟩ := h.slot c hc
    obtain ⟨slot', hslot', rest', hdkey⟩ := h'.slot d hd
    rw [hckey, hdkey, List.cons_append, List.cons_append] at hkey
    rw [← (List.cons.inj hkey).1] at hslot'
    exact hslots slot hslot hslot'
  nonempty := List.forall_mem_append.mpr ⟨h.nonempty, h'.nonempty⟩
  slot := by
    refine List.forall_mem_append.mpr ⟨fun c hc => ?_, fun c hc => ?_⟩
    · obtain ⟨slot, hslot, hkey⟩ := h.slot c hc
      exact ⟨slot, List.mem_append_left _ hslot, hkey⟩
    · obtain ⟨slot, hslot, hkey⟩ := h'.slot c hc
      exact ⟨slot, List.mem_append_right _ hslot, hkey⟩

end Child

namespace Node
open Child

theorem keyed_children (n : Node) : Keyed n.children := by
  match n with
  | .operationDefinition o =>
    exact ((((slotted_optional .name _).append (slotted_list .variableDefinitions _)
      (by decide)).append (slotted_list .directives _) (by decide)).append
      (slotted_single .selectionSet _) (by decide)).toKeyed
  | .fragmentDefinition f =>
    exact ((((slotted_single .name _).append (slotted_single .typeCondition _)
      (by decide)).append (slotted_list .directives _) (by decide)).append
      (slotted_single .selectionSet _) (by decide)).toKeyed
  | .variableDefinition v =>
    exact ((((slotted_single .variable _).append (slotted_single .typeRef _)
      (by decide)).append (slotted_optional .defaultValue _) (by decide)).append
      (slotted_list .directives _) (by decide)).toKeyed
  | .field f =>
    exact (((((slotted_optional .aliasName _).append (slotted_single .name _)
      (by decide)).append (slotted_list .arguments _) (by decide)).append
      (slotted_list .directives _) (by decide)).append
      (slotted_optional .selectionSet _) (by decide)).toKeyed
  | .fragmentSpread s =>
    exact ((slotted_single .name _).append (slotted_list .directives _) (by decide)).toKeyed
  | .inlineFragment f =>
    exact (((slotted_optional .typeCondition _).append (slotted_list .directives _)
      (by decide)).append (slotted_single .selectionSet _) (by decide)).toKeyed
  | .argument _ | .objectField _ =>
    exact ((slotted_single .name _).append (slotted_single .value _) (by decide)).toKeyed
  | .directive d =>
    exact ((slotted_single .name _).append (slotted_list .arguments _) (by decide)).toKeyed
  | .variable _ | .namedType _ | .typeRef (.named _) => exact (slotted_single .name _).toKeyed
  | .typeRef (.list _) | .typeRef (.nonNull _) => exact (slotted_single .typeRef _).toKeyed
  | .document _ | .selectionSet _ | .value (.list _) | .value (.object _) =>
    exact keyed_listFrom [] 0 _
  | .name _ | .value .null | .value (.boolean _) | .value (.int _) | .value (.float _)
  | .value (.string ..) | .value (.enum _) | .value (.variable _) => exact keyed_nil

/-! ## Ways down a tree -/

/-- The children on the way from a node down to one of the nodes below it. -/
inductive Descends : Node → List Child → Node → Prop where
  | here (n : Node) : Descends n [] n
  | down {m n : Node} {c : Child} {way : List Child} :
      c ∈ n.children → Descends c.node way m → Descends n (c :: way) m

/-- The keys on a way, one after the other. -/
def pathOf (way : List Child) : List Segment := way.flatMap (·.key)

theorem pathOf_cons (c : Child) (way : List Child) : pathOf (c :: way) = c.key ++ pathOf way :=
  List.flatMap_cons

variable {m m' n : Node} {c : Child} {way way' : List Child}

theorem pathOf_ne_nil (hc : c ∈ n.children) : pathOf (c :: way) ≠ [] := by
  rw [pathOf_cons]
  exact List.append_ne_nil_of_left_ne_nil ((keyed_children n).nonempty c hc) _

/-- Different ways have different paths. -/
theorem Descends.eq_of_path (h : n.Descends way m) (h' : n.Descends way' m')
    (hpath : pathOf way = pathOf way') : way = way' := by
  induction h generalizing way' m' with
  | here n =>
    cases h' with
    | here => rfl
    | down hd _ => exact absurd hpath.symm (pathOf_ne_nil hd)
  | @down m n c way hc _ ih =>
    cases h' with
    | here => exact absurd hpath (pathOf_ne_nil hc)
    | @down _ _ d way' hd hrest =>
      rw [pathOf_cons, pathOf_cons] at hpath
      obtain rfl := (keyed_children n).eq_of_append hc hd hpath
      rw [ih hrest (List.append_cancel_left hpath)]

/-- The node that a path leads to: at each node the child is taken whose key the rest of the
path begins with. -/
def resolve (n : Node) (path : List Segment) : Option Node :=
  if path = [] then some n
  else
    match _h : n.children.find? (·.key.isPrefixOf path) with
    | none => none
    | some c => c.node.resolve (path.drop c.key.length)
termination_by sizeOf n
decreasing_by exact sizeOf_child (List.mem_of_find?_eq_some ‹_›)

theorem resolve_nil (n : Node) : n.resolve [] = some n := by
  rw [resolve, if_pos rfl]

theorem resolve_append (hc : c ∈ n.children) (path : List Segment) :
    n.resolve (c.key ++ path) = c.node.resolve path := by
  have hne : c.key ++ path ≠ [] :=
    List.append_ne_nil_of_left_ne_nil ((keyed_children n).nonempty c hc) _
  -- No child before this one has a key that the path begins with.
  have hfind : n.children.find? (·.key.isPrefixOf (c.key ++ path)) = some c := by
    cases hfind : n.children.find? (·.key.isPrefixOf (c.key ++ path)) with
    | none =>
      have hnot := List.find?_eq_none.mp hfind c hc
      exact absurd (List.isPrefixOf_iff_prefix.mpr (List.prefix_append _ _)) hnot
    | some d =>
      have hprefix : d.key.isPrefixOf (c.key ++ path) = true :=
        List.find?_some (p := fun d : Child => d.key.isPrefixOf (c.key ++ path)) hfind
      obtain ⟨y, hy⟩ := List.isPrefixOf_iff_prefix.mp hprefix
      rw [(keyed_children n).eq_of_append (List.mem_of_find?_eq_some hfind) hc hy]
  rw [resolve, if_neg hne]
  split
  · rename_i hnone
    cases hnone.symm.trans hfind
  · rename_i d hd
    cases hd.symm.trans hfind
    rw [List.drop_left]

theorem Descends.resolve (h : n.Descends way m) : n.resolve (pathOf way) = some m := by
  induction h with
  | here n => exact resolve_nil n
  | down hc _ ih => rw [pathOf_cons, resolve_append hc, ih]

/-! ## All ways -/

/-- The ways to all nodes of a tree, the way to a node before those to the nodes below it, and
children from left to right. -/
def preorder (n : Node) : List (List Child) :=
  [] :: n.children.attach.flatMap fun c => c.1.node.preorder.map (c.1 :: ·)
termination_by sizeOf n
decreasing_by exact sizeOf_child c.2

/-- The ways to all nodes of a tree, the way to a node after those to the nodes below it, and
children from left to right. -/
def postorder (n : Node) : List (List Child) :=
  (n.children.attach.flatMap fun c => c.1.node.postorder.map (c.1 :: ·)) ++ [[]]
termination_by sizeOf n
decreasing_by exact sizeOf_child c.2

theorem preorder_eq (n : Node) :
    n.preorder = [] :: n.children.flatMap fun c => c.node.preorder.map (c :: ·) := by
  rw [preorder, List.flatMap_subtype (g := fun c => c.node.preorder.map (c :: ·)) fun _ _ => rfl,
    List.unattach_attach]

theorem postorder_eq (n : Node) :
    n.postorder = (n.children.flatMap fun c => c.node.postorder.map (c :: ·)) ++ [[]] := by
  rw [postorder, List.flatMap_subtype (g := fun c => c.node.postorder.map (c :: ·)) fun _ _ => rfl,
    List.unattach_attach]

/-- A way down to a child and on from there begins with this child and no other one. -/
theorem nodup_below {ways : Node → List (List Child)}
    (h : ∀ c ∈ n.children, (ways c.node).Nodup) :
    (n.children.flatMap fun c => (ways c.node).map (c :: ·)).Nodup := by
  refine List.nodup_flatMap.mpr ⟨fun c hc => (h c hc).map fun _ _ => List.tail_eq_of_cons_eq, ?_⟩
  refine (keyed_children n).nodup.imp fun hne way hway hway' => ?_
  obtain ⟨rest, -, rfl⟩ := List.mem_map.mp hway
  obtain ⟨rest', -, hsame⟩ := List.mem_map.mp hway'
  exact hne (List.head_eq_of_cons_eq hsame).symm

theorem nodup_preorder (n : Node) : n.preorder.Nodup := by
  induction n using of_children with
  | h n ih =>
    rw [preorder_eq]
    refine List.nodup_cons.mpr ⟨fun h => ?_, nodup_below ih⟩
    obtain ⟨c, -, h⟩ := List.mem_flatMap.mp h
    obtain ⟨rest, -, h⟩ := List.mem_map.mp h
    cases h

theorem mem_preorder : way ∈ n.preorder ↔ ∃ m, n.Descends way m := by
  induction n using of_children generalizing way with
  | h n ih =>
    rw [preorder_eq, List.mem_cons, List.mem_flatMap]
    constructor
    · rintro (rfl | ⟨c, hc, h⟩)
      · exact ⟨n, .here n⟩
      · obtain ⟨rest, hrest, rfl⟩ := List.mem_map.mp h
        obtain ⟨m, hm⟩ := (ih c hc).mp hrest
        exact ⟨m, .down hc hm⟩
    · rintro ⟨m, h⟩
      cases h with
      | here => exact .inl rfl
      | @down _ _ c rest hc hrest =>
        exact .inr ⟨c, hc, List.mem_map_of_mem ((ih c hc).mpr ⟨m, hrest⟩)⟩

/-- Both orders have the same ways. -/
theorem postorder_perm (n : Node) : n.postorder.Perm n.preorder := by
  induction n using of_children with
  | h n ih =>
    rw [preorder_eq, postorder_eq]
    refine List.perm_append_comm.trans (.cons [] ?_)
    exact List.Perm.flatMap_left _ fun c hc => (ih c hc).map _

end Node
end QueryDoc
