import QueryDoc.Proofs.Tree.Inside
import QueryDoc.Tree.Refill
import QueryDoc.Visit.Visitor

/-! What rebuilding gives. The children of a rebuilt node are the entries that it was rebuilt
around, in their plain form, so a rule holds throughout the new node if it holds throughout
the entries and the new node itself follows it. Of the rules for single nodes, rebuilding
looks after two itself: no selection set becomes empty and no type excludes null twice. -/
namespace QueryDoc

namespace Child

/-- The field of its parent that a child is in; a parent may hold all its children in one list
without a name. -/
def field? (c : Child) : Option Segment := c.key.find? (!·.isIndex)

/-- A child and the field that it is in, wherever it stands in a list there. -/
def holding (c : Child) : Option Segment × Node := (c.field?, c.node)

theorem field?_member (keys : List Segment) (i : Nat) (n : Node) :
    field? ⟨keys ++ [.index i], n⟩ = keys.find? (!·.isIndex) := by
  simp [field?, Segment.isIndex]

theorem length_listFrom (keys : List Segment) (j : Nat) (ns : List Node) :
    (listFrom keys j ns).length = ns.length := by
  induction ns generalizing j with
  | nil => rfl
  | cons n ns ih => simp only [listFrom, List.length_cons, ih]

end Child

/-- What a node has to say besides its children. -/
inductive Datum where
  | nothing
  | operation (k : OperationKind)
  | text (s : String)
  | literal (v : Value)
deriving DecidableEq

namespace Node

/-- The data of a node itself. A literal without members has no other data. -/
def datum : Node → Datum
  | .operationDefinition o => .operation o.operation
  | .name x => .text x.text
  | .value (.list _) | .value (.object _) => .nothing
  | .value v => .literal v
  | _ => .nothing

/-- Nodes that only their children may tell apart. -/
structure Alike (m n : Node) : Prop where
  shape : m.shape = n.shape
  kind : m.kind = n.kind
  datum : m.datum = n.datum

theorem Alike.refl (n : Node) : n.Alike n := ⟨rfl, rfl, rfl⟩

theorem Alike.symm {m n : Node} (h : m.Alike n) : n.Alike m :=
  ⟨h.shape.symm, h.kind.symm, h.datum.symm⟩

theorem Alike.trans {k m n : Node} (h : k.Alike m) (h' : m.Alike n) : k.Alike n :=
  ⟨h.shape.trans h'.shape, h.kind.trans h'.kind, h.datum.trans h'.datum⟩

end Node

namespace Refill
open IsNode

variable {α β : Type} {entries rest : List (Option Node)}

/-! ## What readers of entries take -/

/-- A reader builds a part from some of the entries and leaves the rest. -/
def Takes (r : Refill α) (entries : List (Option Node)) (a : α)
    (rest : List (Option Node)) : Prop :=
  r entries = .ok (a, rest)

theorem run_bind (r : Refill α) (f : α → Refill β) :
    (r >>= f) entries = (r entries >>= fun p => f p.1 p.2) := rfl

theorem takes_bind {r : Refill α} {f : α → Refill β} {b : β} :
    Takes (r >>= f) entries b rest ↔
      ∃ a mid, Takes r entries a mid ∧ Takes (f a) mid b rest := by
  rw [Takes, run_bind]
  cases hr : r entries with
  | error e => simp [Takes, hr, bind, Except.bind]
  | ok p => simp [Takes, hr, bind, Except.bind, Prod.ext_iff, and_assoc]

/-- A reader that fails makes what follows it fail. -/
theorem error_bind {r : Refill α} {f : α → Refill β} {e : Error} (h : r entries = .error e) :
    (r >>= f) entries = .error e := by
  rw [run_bind, h]
  rfl

theorem takes_return {a b : α} :
    Takes (pure a : Refill α) entries b rest ↔ b = a ∧ rest = entries := by
  have hrun : (pure a : Refill α) entries = .ok (a, entries) := rfl
  rw [Takes, hrun]
  simp [eq_comm]

theorem not_takes_throw {e : Error} {a : α} : ¬ Takes (throw e : Refill α) entries a rest :=
  nofun

theorem takes_lift {x : Except Error α} {a : α} :
    Takes (liftM x : Refill α) entries a rest ↔ x = .ok a ∧ rest = entries := by
  cases x with
  | error e => simp [Takes, liftM, monadLift, MonadLift.monadLift, StateT.lift, bind, Except.bind]
  | ok b =>
    simp [Takes, liftM, monadLift, MonadLift.monadLift, StateT.lift, bind, Except.bind, pure,
      Except.pure, eq_comm]

/-! ## Parts in the places of others -/

/-- A part that can be read from a node is the plain form of that node. -/
class Plain (α : Type) [IsNode α] : Prop where
  toNode_eq : ∀ {n : Node} {a : α}, ofNode? n = some a → toNode a = n.plain

instance : Plain Name := ⟨fun {n a} h => by cases n <;> cases h; rfl⟩
instance : Plain VariableDefinition := ⟨fun {n a} h => by cases n <;> cases h; rfl⟩
instance : Plain SelectionSet := ⟨fun {n a} h => by cases n <;> cases h; rfl⟩
instance : Plain Argument := ⟨fun {n a} h => by cases n <;> cases h; rfl⟩
instance : Plain Directive := ⟨fun {n a} h => by cases n <;> cases h; rfl⟩
instance : Plain ObjectField := ⟨fun {n a} h => by cases n <;> cases h; rfl⟩
instance : Plain Definition := ⟨fun {n a} h => by cases n <;> cases h <;> rfl⟩
instance : Plain Selection := ⟨fun {n a} h => by cases n <;> cases h <;> rfl⟩
instance : Plain TypeRef := ⟨fun {n a} h => by cases n <;> cases h <;> rfl⟩
instance : Plain Value := ⟨fun {n a} h => by cases n <;> cases h <;> rfl⟩
instance : Plain Variable := ⟨fun {n a} h => by
  match n, h with
  | .variable _, h => cases h; rfl
  | .value (.variable _), h => cases h; rfl⟩
instance : Plain NamedType := ⟨fun {n a} h => by
  match n, h with
  | .namedType _, h => cases h; rfl
  | .typeRef (.named _), h => cases h; rfl⟩

theorem expect_eq_ok [IsNode α] {n : Node} {a : α} :
    expect α n = .ok a ↔ (ofNode? n : Option α) = some a := by
  unfold expect
  cases (ofNode? n : Option α) <;> simp

/-- What entries put in the places of children: each kept one, in its plain form and under the
field of the child that it is for. -/
def kept (old : List Child) (entries : List (Option Node)) : List (Option Segment × Node) :=
  (old.zip entries).filterMap fun p => p.2.map fun k => (p.1.field?, k.plain)

theorem kept_nil : kept [] entries = [] := by
  rw [kept, List.zip_nil_left, List.filterMap_nil]

theorem kept_cons (c : Child) (old : List Child) (entry : Option Node) :
    kept (c :: old) (entry :: entries) =
      (entry.map fun k => (c.field?, k.plain)).toList ++ kept old entries := by
  cases entry <;> rfl

theorem kept_append (old old' : List Child) (entries : List (Option Node)) :
    kept (old ++ old') entries = kept old entries ++ kept old' (entries.drop old.length) := by
  induction old generalizing entries with
  | nil => rw [kept_nil, List.nil_append, List.length_nil, List.drop_zero, List.nil_append]
  | cons c old ih =>
    cases entries with
    | nil => simp [kept]
    | cons entry entries =>
      rw [List.cons_append, kept_cons, kept_cons, ih, List.append_assoc, List.length_cons,
        List.drop_succ_cons]

theorem kept_nodes (old : List Child) (entries : List (Option Node)) :
    (kept old entries).map (·.2) = (entries.take old.length).filterMap (Option.map Node.plain) := by
  induction old generalizing entries with
  | nil => rw [kept_nil, List.length_nil, List.take_zero, List.filterMap_nil, List.map_nil]
  | cons c old ih =>
    cases entries with
    | nil => simp [kept]
    | cons entry entries =>
      rw [kept_cons, List.map_append, ih, List.length_cons, List.take_succ_cons]
      cases entry <;> rfl

/-- New children in the places of old ones: the entries read for those, in their plain form
and without the deleted ones. -/
def Refilled (old new : List Child) (entries rest : List (Option Node)) : Prop :=
  rest = entries.drop old.length ∧ new.map Child.holding = kept old entries

namespace Refilled

variable {old new old' new' : List Child} {mid : List (Option Node)}

theorem nil : Refilled [] [] entries entries := ⟨rfl, kept_nil.symm⟩

theorem append (h : Refilled old new entries mid) (h' : Refilled old' new' mid rest) :
    Refilled (old ++ old') (new ++ new') entries rest := by
  obtain ⟨rfl, hnew⟩ := h
  obtain ⟨rfl, hnew'⟩ := h'
  constructor
  · rw [List.drop_drop, List.length_append]
  · rw [List.map_append, hnew, hnew', kept_append]

/-- A missing entry counts as a deleted child. -/
theorem deleted {c : Child} (h : Takes next entries none rest) : Refilled [c] [] entries rest := by
  cases entries with
  | nil =>
    cases h
    exact ⟨rfl, rfl⟩
  | cons _ entries =>
    cases h
    exact ⟨rfl, rfl⟩

theorem replaced {c d : Child} {k : Node} (h : Takes next entries (some k) rest)
    (hfield : d.field? = c.field?) (hnode : d.node = k.plain) : Refilled [c] [d] entries rest := by
  cases entries with
  | nil => cases h
  | cons _ entries =>
    cases h
    refine ⟨rfl, ?_⟩
    rw [List.map_singleton, Child.holding, hfield, hnode]
    rfl

end Refilled

section Slots
variable [IsNode α] [Plain α]

theorem toNode_of_expect {n : Node} {a : α} (h : Takes (liftM (expect α n)) entries a rest) :
    toNode a = n.plain ∧ rest = entries := by
  obtain ⟨hn, hrest⟩ := takes_lift.mp h
  exact ⟨Plain.toNode_eq (expect_eq_ok.mp hn), hrest⟩

theorem refilled_single {parent : Kind} {slot : Segment} {n : Node} {a : α}
    (h : Takes (required α parent slot) entries a rest) :
    Refilled (Child.single slot n) (Child.single slot (toNode a)) entries rest := by
  obtain ⟨entry, mid, hnext, h⟩ := takes_bind.mp h
  cases entry with
  | none => exact absurd h not_takes_throw
  | some m =>
    obtain ⟨hm, rfl⟩ := toNode_of_expect h
    exact .replaced hnext rfl hm

theorem refilled_optional {slot : Segment} {o b : Option α}
    (h : Takes (optional α o.isSome) entries b rest) :
    Refilled (Child.optional slot (o.map toNode)) (Child.optional slot (b.map toNode))
      entries rest := by
  cases o with
  | none =>
    obtain ⟨rfl, rfl⟩ := takes_return.mp h
    exact .nil
  | some a =>
    obtain ⟨entry, mid, hnext, h⟩ := takes_bind.mp h
    cases entry with
    | none =>
      obtain ⟨rfl, rfl⟩ := takes_return.mp h
      exact .deleted hnext
    | some m =>
      obtain ⟨b, mid, hread, hreturn⟩ := takes_bind.mp h
      obtain ⟨hm, rfl⟩ := toNode_of_expect hread
      obtain ⟨rfl, rfl⟩ := takes_return.mp hreturn
      exact .replaced hnext rfl hm

theorem refilled_listFrom {keys : List Segment} {i j : Nat} {as bs : List α}
    (h : Takes (list α as.length) entries bs rest) :
    Refilled (Child.listFrom keys i (as.map toNode)) (Child.listFrom keys j (bs.map toNode))
      entries rest := by
  induction as generalizing entries bs i j with
  | nil =>
    obtain ⟨rfl, rfl⟩ := takes_return.mp h
    exact .nil
  | cons a as ih =>
    obtain ⟨entry, mid, hnext, h⟩ := takes_bind.mp h
    rw [List.map_cons, Child.listFrom, ← List.singleton_append]
    cases entry with
    | none =>
      have hfirst : Refilled [⟨keys ++ [.index i], toNode a⟩] [] entries mid :=
        .deleted hnext
      exact hfirst.append (ih h)
    | some m =>
      obtain ⟨b, mid, hread, hrest⟩ := takes_bind.mp h
      obtain ⟨hm, rfl⟩ := toNode_of_expect hread
      obtain ⟨bs, mid, hothers, hreturn⟩ := takes_bind.mp hrest
      obtain ⟨rfl, rfl⟩ := takes_return.mp hreturn
      rw [List.map_cons, Child.listFrom, ← List.singleton_append]
      have hfirst : Refilled [⟨keys ++ [.index i], toNode a⟩] [⟨keys ++ [.index j], toNode b⟩]
          entries mid :=
        .replaced hnext (by rw [Child.field?_member, Child.field?_member]) hm
      exact hfirst.append (ih hothers)

end Slots

/-! ## Whole nodes -/

theorem refill_iff_takes {n m : Node} {entries : List (Option Node)} :
    n.refill entries = .ok m ↔ ∃ rest, Takes (node n) entries m rest := by
  have hrun : n.refill entries = (node n entries >>= fun p => .ok p.1) := rfl
  rw [hrun]
  unfold Takes
  cases node n entries with
  | error e => simp [bind, Except.bind]
  | ok p => simp [bind, Except.bind, Prod.ext_iff]

theorem refill_error {n : Node} {e : Error} (h : node n entries = .error e) :
    n.refill entries = .error e := by
  have hrun : n.refill entries = (node n entries >>= fun p => .ok p.1) := rfl
  rw [hrun, h]
  rfl

theorem takes_nullable {t : TypeRef} :
    Takes nullable entries t rest ↔
      Takes (required TypeRef .nonNullType .typeRef) entries t rest ∧ ∀ u, t ≠ .nonNull u := by
  constructor
  · intro h
    obtain ⟨t', mid, hread, h⟩ := takes_bind.mp h
    cases t' with
    | nonNull u => exact absurd h not_takes_throw
    | named _ | list _ =>
      obtain ⟨rfl, rfl⟩ := takes_return.mp h
      exact ⟨hread, nofun⟩
  · rintro ⟨hread, hne⟩
    refine takes_bind.mpr ⟨t, rest, hread, ?_⟩
    cases t with
    | nonNull u => exact absurd rfl (hne u)
    | named _ | list _ => exact takes_return.mpr ⟨rfl, rfl⟩

theorem takes_selections {count : Nat} {ss : List Selection} :
    Takes (selections count) entries ss rest ↔
      Takes (list Selection count) entries ss rest ∧ ss ≠ [] := by
  constructor
  · intro h
    obtain ⟨ss', mid, hread, h⟩ := takes_bind.mp h
    cases ss' with
    | nil => exact absurd h not_takes_throw
    | cons s ss' =>
      obtain ⟨rfl, rfl⟩ := takes_return.mp h
      exact ⟨hread, nofun⟩
  · rintro ⟨hread, hne⟩
    refine takes_bind.mpr ⟨ss, rest, hread, ?_⟩
    cases ss with
    | nil => exact absurd rfl hne
    | cons s ss => exact takes_return.mpr ⟨rfl, rfl⟩

theorem selections_error {count : Nat} (h : Takes (list Selection count) entries [] rest) :
    selections count entries = .error .emptiedSelectionSet := by
  rw [selections, run_bind, h]
  rfl

theorem refilled_typeRef {t u : TypeRef} (h : Takes (typeRef t) entries u rest) :
    (Node.typeRef u).Alike (.typeRef t) ∧
      Refilled (Node.childrenOfTypeRef t) (Node.childrenOfTypeRef u) entries rest := by
  cases t with
  | named _ =>
    obtain ⟨a, mid, ha, h⟩ := takes_bind.mp h
    obtain ⟨rfl, rfl⟩ := takes_return.mp h
    exact ⟨⟨rfl, rfl, rfl⟩, refilled_single ha⟩
  | list _ =>
    obtain ⟨a, mid, ha, h⟩ := takes_bind.mp h
    obtain ⟨rfl, rfl⟩ := takes_return.mp h
    exact ⟨⟨rfl, rfl, rfl⟩, refilled_single ha⟩
  | nonNull _ =>
    obtain ⟨a, mid, ha, h⟩ := takes_bind.mp h
    obtain ⟨rfl, rfl⟩ := takes_return.mp h
    exact ⟨⟨rfl, rfl, rfl⟩, refilled_single (takes_nullable.mp ha).1⟩

theorem refilled_value {v w : Value} (h : Takes (value v) entries w rest) :
    (Node.value w).Alike (.value v) ∧
      Refilled (Node.childrenOfValue v) (Node.childrenOfValue w) entries rest := by
  cases v with
  | list vs =>
    obtain ⟨a, mid, ha, h⟩ := takes_bind.mp h
    obtain ⟨rfl, rfl⟩ := takes_return.mp h
    exact ⟨⟨rfl, rfl, rfl⟩, refilled_listFrom ha⟩
  | object fs =>
    obtain ⟨a, mid, ha, h⟩ := takes_bind.mp h
    obtain ⟨rfl, rfl⟩ := takes_return.mp h
    exact ⟨⟨rfl, rfl, rfl⟩, refilled_listFrom ha⟩
  | _ =>
    obtain ⟨rfl, rfl⟩ := takes_return.mp h
    exact ⟨.refl _, .nil⟩

/-- A rebuilt node is like the node, and has for its children the entries. -/
theorem refilled_node {n m : Node} (h : Takes (node n) entries m rest) :
    m.Alike n ∧ Refilled n.children m.children entries rest := by
  match n with
  | .document d =>
    obtain ⟨ds, _, hds, h⟩ := takes_bind.mp h
    obtain ⟨rfl, rfl⟩ := takes_return.mp h
    exact ⟨⟨rfl, rfl, rfl⟩, refilled_listFrom hds⟩
  | .operationDefinition o =>
    obtain ⟨name, _, hname, h⟩ := takes_bind.mp h
    obtain ⟨declared, _, hdeclared, h⟩ := takes_bind.mp h
    obtain ⟨dirs, _, hdirs, h⟩ := takes_bind.mp h
    obtain ⟨set, _, hset, h⟩ := takes_bind.mp h
    obtain ⟨rfl, rfl⟩ := takes_return.mp h
    exact ⟨⟨rfl, rfl, rfl⟩, (((refilled_optional hname).append (refilled_listFrom hdeclared)).append
      (refilled_listFrom hdirs)).append (refilled_single hset)⟩
  | .fragmentDefinition f =>
    obtain ⟨name, _, hname, h⟩ := takes_bind.mp h
    obtain ⟨condition, _, hcondition, h⟩ := takes_bind.mp h
    obtain ⟨dirs, _, hdirs, h⟩ := takes_bind.mp h
    obtain ⟨set, _, hset, h⟩ := takes_bind.mp h
    obtain ⟨rfl, rfl⟩ := takes_return.mp h
    exact ⟨⟨rfl, rfl, rfl⟩, (((refilled_single hname).append (refilled_single hcondition)).append
      (refilled_listFrom hdirs)).append (refilled_single hset)⟩
  | .variableDefinition v =>
    obtain ⟨declared, _, hdeclared, h⟩ := takes_bind.mp h
    obtain ⟨type, _, htype, h⟩ := takes_bind.mp h
    obtain ⟨value, _, hvalue, h⟩ := takes_bind.mp h
    obtain ⟨dirs, _, hdirs, h⟩ := takes_bind.mp h
    obtain ⟨rfl, rfl⟩ := takes_return.mp h
    exact ⟨⟨rfl, rfl, rfl⟩, (((refilled_single hdeclared).append (refilled_single htype)).append
      (refilled_optional hvalue)).append (refilled_listFrom hdirs)⟩
  | .selectionSet s =>
    obtain ⟨ss, _, hss, h⟩ := takes_bind.mp h
    obtain ⟨rfl, rfl⟩ := takes_return.mp h
    exact ⟨⟨rfl, rfl, rfl⟩, refilled_listFrom (takes_selections.mp hss).1⟩
  | .field f =>
    obtain ⟨aliasName, _, halias, h⟩ := takes_bind.mp h
    obtain ⟨name, _, hname, h⟩ := takes_bind.mp h
    obtain ⟨arguments, _, harguments, h⟩ := takes_bind.mp h
    obtain ⟨dirs, _, hdirs, h⟩ := takes_bind.mp h
    obtain ⟨set, _, hset, h⟩ := takes_bind.mp h
    obtain ⟨rfl, rfl⟩ := takes_return.mp h
    exact ⟨⟨rfl, rfl, rfl⟩, ((((refilled_optional halias).append (refilled_single hname)).append
      (refilled_listFrom harguments)).append (refilled_listFrom hdirs)).append
      (refilled_optional hset)⟩
  | .fragmentSpread s =>
    obtain ⟨name, _, hname, h⟩ := takes_bind.mp h
    obtain ⟨dirs, _, hdirs, h⟩ := takes_bind.mp h
    obtain ⟨rfl, rfl⟩ := takes_return.mp h
    exact ⟨⟨rfl, rfl, rfl⟩, (refilled_single hname).append (refilled_listFrom hdirs)⟩
  | .inlineFragment f =>
    obtain ⟨condition, _, hcondition, h⟩ := takes_bind.mp h
    obtain ⟨dirs, _, hdirs, h⟩ := takes_bind.mp h
    obtain ⟨set, _, hset, h⟩ := takes_bind.mp h
    obtain ⟨rfl, rfl⟩ := takes_return.mp h
    exact ⟨⟨rfl, rfl, rfl⟩, ((refilled_optional hcondition).append (refilled_listFrom hdirs)).append
      (refilled_single hset)⟩
  | .argument a =>
    obtain ⟨name, _, hname, h⟩ := takes_bind.mp h
    obtain ⟨value, _, hvalue, h⟩ := takes_bind.mp h
    obtain ⟨rfl, rfl⟩ := takes_return.mp h
    exact ⟨⟨rfl, rfl, rfl⟩, (refilled_single hname).append (refilled_single hvalue)⟩
  | .directive d =>
    obtain ⟨name, _, hname, h⟩ := takes_bind.mp h
    obtain ⟨arguments, _, harguments, h⟩ := takes_bind.mp h
    obtain ⟨rfl, rfl⟩ := takes_return.mp h
    exact ⟨⟨rfl, rfl, rfl⟩, (refilled_single hname).append (refilled_listFrom harguments)⟩
  | .variable v =>
    obtain ⟨name, _, hname, h⟩ := takes_bind.mp h
    obtain ⟨rfl, rfl⟩ := takes_return.mp h
    exact ⟨⟨rfl, rfl, rfl⟩, refilled_single hname⟩
  | .namedType t =>
    obtain ⟨name, _, hname, h⟩ := takes_bind.mp h
    obtain ⟨rfl, rfl⟩ := takes_return.mp h
    exact ⟨⟨rfl, rfl, rfl⟩, refilled_single hname⟩
  | .typeRef t =>
    obtain ⟨u, _, hu, h⟩ := takes_bind.mp h
    obtain ⟨rfl, rfl⟩ := takes_return.mp h
    exact refilled_typeRef hu
  | .value v =>
    obtain ⟨w, _, hw, h⟩ := takes_bind.mp h
    obtain ⟨rfl, rfl⟩ := takes_return.mp h
    exact refilled_value hw
  | .objectField f =>
    obtain ⟨name, _, hname, h⟩ := takes_bind.mp h
    obtain ⟨value, _, hvalue, h⟩ := takes_bind.mp h
    obtain ⟨rfl, rfl⟩ := takes_return.mp h
    exact ⟨⟨rfl, rfl, rfl⟩, (refilled_single hname).append (refilled_single hvalue)⟩
  | .name x =>
    obtain ⟨rfl, rfl⟩ := takes_return.mp h
    exact ⟨.refl _, .nil⟩

end Refill

namespace Node

variable {n m : Node} {entries : List (Option Node)}

theorem alike_refill (h : n.refill entries = .ok m) : m.Alike n := by
  obtain ⟨_, h⟩ := Refill.refill_iff_takes.mp h
  exact (Refill.refilled_node h).1

theorem shape_refill (h : n.refill entries = .ok m) : m.shape = n.shape :=
  (alike_refill h).shape

/-- The children of a node, each with its field. -/
def holdings (n : Node) : List (Option Segment × Node) := n.children.map Child.holding

theorem holdings_refill (h : n.refill entries = .ok m) :
    m.holdings = Refill.kept n.children entries := by
  obtain ⟨_, h⟩ := Refill.refill_iff_takes.mp h
  exact (Refill.refilled_node h).2.2

theorem children_refill (h : n.refill entries = .ok m) :
    m.children.map (·.node) =
      (entries.take n.children.length).filterMap (Option.map plain) := by
  rw [← Refill.kept_nodes, ← holdings_refill h, holdings, List.map_map]
  rfl

theorem child_of_refill {c : Child} (h : n.refill entries = .ok m) (hc : c ∈ m.children) :
    ∃ k, some k ∈ entries ∧ c.node = k.plain := by
  have hmem : c.node ∈ m.children.map (·.node) := List.mem_map_of_mem hc
  rw [children_refill h, List.mem_filterMap] at hmem
  obtain ⟨entry, hentry, hplain⟩ := hmem
  obtain ⟨k, rfl, hk⟩ := Option.map_eq_some_iff.mp hplain
  exact ⟨k, List.mem_of_mem_take hentry, hk.symm⟩

/-! ## Rules throughout rebuilt nodes -/

/-- A rule says nothing of names, and nothing of variables and named types, which may have
another form where they stand in a tree. -/
structure Permits (P : Node → Prop) : Prop where
  ofName : ∀ x, P (.name x)
  ofVariable : ∀ v, P (.variable v)
  ofNamedType : ∀ t, P (.namedType t)

variable {P : Node → Prop}

theorem Permits.throughout_variable (hP : Permits P) (v : Variable) :
    (Node.variable v).Throughout P := by
  rw [throughout_iff]
  refine ⟨hP.ofVariable v, fun c hc => ?_⟩
  rw [List.mem_singleton.mp hc, throughout_iff]
  exact ⟨hP.ofName v.name, nofun⟩

theorem Throughout.plain (hP : Permits P) (h : n.Throughout P) : n.plain.Throughout P := by
  rcases n.plain_cases with hplain | ⟨v, rfl⟩ | ⟨t, rfl⟩
  · rwa [hplain]
  · exact hP.throughout_variable v
  · exact throughout_iff.mpr ⟨hP.ofNamedType t, (throughout_iff.mp h).2⟩

/-- A rule holds throughout a rebuilt node if the node follows it and it holds throughout the
entries. -/
theorem throughout_refill (hP : Permits P) (h : n.refill entries = .ok m) (hm : P m)
    (hentries : ∀ k, some k ∈ entries → k.Throughout P) : m.Throughout P := by
  rw [throughout_iff]
  refine ⟨hm, fun c hc => ?_⟩
  obtain ⟨k, hk, hplain⟩ := child_of_refill h hc
  rw [hplain]
  exact (hentries k hk).plain hP

end Node
end QueryDoc
