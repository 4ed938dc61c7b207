import QueryDoc.Proofs.Tree.Refill

/-! Which entries a node can be rebuilt around, and what is then in each of its fields. A table
says for each field of each node what it has room for and whether the node can do without it.
Rebuilding follows the table, and it puts every entry back into the field that the child was in,
so a node is rebuilt around its own children as itself. -/
namespace QueryDoc
open IsNode

/-- A node can be read as a part of a given type. -/
def Fits (α : Type) [IsNode α] (n : Node) : Prop := (ofNode? n : Option α).isSome = true

namespace Node

/-- What a field of a node has room for. -/
def Admits (parent : Node) : Option Segment → Node → Prop
  | some .aliasName | some .name => Fits Name
  | some .variable => Fits Variable
  | some .typeRef => Fits TypeRef
  | some .typeCondition => Fits NamedType
  | some .value | some .defaultValue => Fits Value
  | some .selectionSet => Fits SelectionSet
  | some .arguments => Fits Argument
  | some .directives => Fits Directive
  | some .variableDefinitions => Fits VariableDefinition
  | some (.index _) => fun _ => False
  | none =>
    match parent with
    | .document _ => Fits Definition
    | .selectionSet _ => Fits Selection
    | .value (.list _) => Fits Value
    | .value (.object _) => Fits ObjectField
    | _ => fun _ => False

/-- Whether a node cannot do without the child in a field. -/
def requires (parent : Node) : Option Segment → Bool
  | some .name => parent.shape != .operation
  | some .typeCondition => parent.shape == .fragment
  | some .selectionSet => parent.shape != .field
  | some .variable | some .typeRef | some .value => true
  | _ => false

/-- An entry may come in the place of a child. -/
def Allows (parent : Node) (c : Child) : Option Node → Prop
  | some k => parent.Admits c.field? k
  | none => parent.requires c.field? = false

/-- Entries that a node can be rebuilt around. -/
structure Suits (n : Node) (entries : List (Option Node)) : Prop where
  allowed : ∀ p ∈ n.children.zip entries, n.Allows p.1 p.2
  nonempty : n.shape = .selectionSet → ∃ k, some k ∈ entries
  nullable : n.kind = .nonNullType → ∀ k, some k ∈ entries → k.kind ≠ .nonNullType

end Node

namespace Refill

variable {α β : Type}

/-! ## What readers of entries accept -/

/-- A reader takes an entry for each of some children. It succeeds if a condition holds that
does not depend on them, and a rule for each child and its entry. -/
def Checks (Q : Prop) (P : Child → Option Node → Prop) (r : Refill α) (old : List Child) : Prop :=
  ∀ entries rest left, entries.length = old.length →
    ((∃ a, Takes r (entries ++ rest) a left) ↔
      left = rest ∧ Q ∧ ∀ p ∈ old.zip entries, P p.1 p.2)

section Checks
variable {Q Q' : Prop} {P : Child → Option Node → Prop} {c : Child} {old old' : List Child}
variable {r : Refill α}

theorem Checks.of_iff (h : Checks Q P r old) (hQ : Q ↔ Q') : Checks Q' P r old := by
  rwa [← propext hQ]

theorem Checks.bind {f : α → Refill β} (hr : Checks Q P r old)
    (hf : ∀ a, Checks True P (f a) old') : Checks Q P (r >>= f) (old ++ old') := by
  intro entries rest left hlength
  obtain ⟨es, es', rfl, hes, hes'⟩ : ∃ es es', entries = es ++ es' ∧ es.length = old.length ∧
      es'.length = old'.length := by
    rw [List.length_append] at hlength
    refine ⟨_, _, (List.take_append_drop old.length entries).symm, ?_, ?_⟩
    · rw [List.length_take]
      omega
    · rw [List.length_drop]
      omega
  rw [List.append_assoc, List.zip_append hes.symm, List.forall_mem_append]
  constructor
  · rintro ⟨b, h⟩
    obtain ⟨a, mid, ha, hb⟩ := takes_bind.mp h
    obtain ⟨rfl, hQ, hold⟩ := (hr es _ mid hes).mp ⟨a, ha⟩
    obtain ⟨hleft, -, hold'⟩ := (hf a es' rest left hes').mp ⟨b, hb⟩
    exact ⟨hleft, hQ, hold, hold'⟩
  · rintro ⟨hleft, hQ, hold, hold'⟩
    obtain ⟨a, ha⟩ := (hr es (es' ++ rest) _ hes).mpr ⟨rfl, hQ, hold⟩
    obtain ⟨b, hb⟩ := (hf a es' rest left hes').mpr ⟨hleft, trivial, hold'⟩
    exact ⟨b, takes_bind.mpr ⟨a, _, ha, hb⟩⟩

/-- A reader that takes no entries. -/
theorem checks_nil (h : ∀ rest left, (∃ a, Takes r rest a left) ↔ left = rest ∧ Q) :
    Checks Q P r [] := by
  intro entries rest left hlength
  rw [List.eq_nil_of_length_eq_zero hlength, List.nil_append, h, List.zip_nil_left]
  simp

theorem checks_return (a : α) : Checks True P (pure a : Refill α) [] := by
  refine checks_nil fun rest left => ⟨?_, ?_⟩
  · rintro ⟨b, h⟩
    exact ⟨(takes_return.mp h).2, trivial⟩
  · rintro ⟨hleft, -⟩
    exact ⟨a, takes_return.mpr ⟨rfl, hleft⟩⟩

theorem checks_throw (e : Error) : Checks False P (throw e : Refill α) [] := by
  refine checks_nil fun rest left => ⟨?_, fun h => h.2.elim⟩
  rintro ⟨a, h⟩
  exact absurd h not_takes_throw

theorem checks_expect [IsNode α] (k : Node) :
    Checks (Fits α k) P (liftM (expect α k) : Refill α) [] := by
  refine checks_nil fun rest left => ?_
  rw [Fits, Option.isSome_iff_exists]
  constructor
  · rintro ⟨a, h⟩
    obtain ⟨ha, hleft⟩ := takes_lift.mp h
    exact ⟨hleft, a, expect_eq_ok.mp ha⟩
  · rintro ⟨hleft, a, ha⟩
    exact ⟨a, takes_lift.mpr ⟨expect_eq_ok.mpr ha, hleft⟩⟩

theorem checks_next {f : Option Node → Refill α}
    (h : ∀ entry, Checks (P c entry) P (f entry) old) : Checks True P (next >>= f) (c :: old) := by
  intro entries rest left hlength
  obtain ⟨entry, es, rfl⟩ := List.exists_cons_of_length_eq_add_one hlength
  have hrun : (next >>= f) (entry :: es ++ rest) = f entry (es ++ rest) := rfl
  have hes : es.length = old.length := by
    rw [List.length_cons, List.length_cons] at hlength
    omega
  rw [List.zip_cons_cons, List.forall_mem_cons, true_and, ← h entry es rest left hes]
  simp only [Takes, hrun]

/-- What a reader that is given just its own entries accepts. -/
theorem Checks.accepts {entries : List (Option Node)} (h : Checks Q P r old)
    (hlength : entries.length = old.length) :
    (∃ a rest, Takes r entries a rest) ↔ Q ∧ ∀ p ∈ old.zip entries, P p.1 p.2 := by
  have hiff := fun left => h entries [] left hlength
  simp only [List.append_nil] at hiff
  constructor
  · rintro ⟨a, rest, ha⟩
    exact ((hiff rest).mp ⟨a, ha⟩).2
  · intro hP
    obtain ⟨a, ha⟩ := (hiff []).mpr ⟨rfl, hP⟩
    exact ⟨a, [], ha⟩

/-- What is read goes into a part without further checks. -/
theorem Checks.done {f : α → β} (hr : Checks Q P r old) :
    Checks Q P (r >>= fun a => pure (f a)) old := by
  have h := hr.bind fun a => checks_return (P := P) (f a)
  rwa [List.append_nil] at h

end Checks

section Fields
variable [IsNode α] {n : Node}

theorem checks_single {parent : Kind} {slot : Segment} {k : Node}
    (hrequires : n.requires ([slot].find? (!·.isIndex)) = true)
    (hadmits : n.Admits ([slot].find? (!·.isIndex)) = Fits α) :
    Checks True n.Allows (required α parent slot) (Child.single slot k) := by
  refine checks_next fun entry => ?_
  cases entry with
  | none =>
    have hnot : ¬ n.requires ([slot].find? (!·.isIndex)) = false := by rw [hrequires]; nofun
    exact (checks_throw _).of_iff ⟨False.elim, hnot⟩
  | some m => exact (checks_expect m).of_iff (iff_of_eq (congrFun hadmits m).symm)

theorem checks_optional {slot : Segment} {o : Option α}
    (hrequires : n.requires ([slot].find? (!·.isIndex)) = false)
    (hadmits : n.Admits ([slot].find? (!·.isIndex)) = Fits α) :
    Checks True n.Allows (optional α o.isSome) (Child.optional slot (o.map toNode)) := by
  cases o with
  | none => exact checks_return none
  | some a =>
    refine checks_next fun entry => ?_
    cases entry with
    | none => exact (checks_return none).of_iff ⟨fun _ => hrequires, fun _ => trivial⟩
    | some m => exact (checks_expect m).done.of_iff (iff_of_eq (congrFun hadmits m).symm)

theorem checks_listFrom {keys : List Segment} {i : Nat} {as : List α}
    (hrequires : n.requires (keys.find? (!·.isIndex)) = false)
    (hadmits : n.Admits (keys.find? (!·.isIndex)) = Fits α) :
    Checks True n.Allows (list α as.length) (Child.listFrom keys i (as.map toNode)) := by
  induction as generalizing i with
  | nil => exact checks_return []
  | cons a as ih =>
    refine checks_next fun entry => ?_
    rw [← Child.field?_member keys i (toNode a)] at hrequires hadmits
    cases entry with
    | none => exact ih.of_iff ⟨fun _ => hrequires, fun _ => trivial⟩
    | some m =>
      exact .of_iff ((checks_expect m).bind fun _ => ih.done)
        (iff_of_eq (congrFun hadmits m).symm)

end Fields

/-! ## Whole nodes -/

/-- Rebuilding checks the entries of children one by one; only a selection set and a non-null
type have a rule besides. -/
theorem checks_node (n : Node) (hset : n.shape ≠ .selectionSet) (hnonNull : n.kind ≠ .nonNullType) :
    Checks True n.Allows (node n) n.children := by
  match n with
  | .document d => exact (checks_listFrom rfl rfl).done
  | .operationDefinition o =>
    simp only [Node.children, List.append_assoc]
    exact .bind (checks_optional rfl rfl) fun _ => .bind (checks_listFrom rfl rfl) fun _ =>
      .bind (checks_listFrom rfl rfl) fun _ => .done (checks_single rfl rfl)
  | .fragmentDefinition f =>
    simp only [Node.children, List.append_assoc]
    exact .bind (checks_single rfl rfl) fun _ => .bind (checks_single rfl rfl) fun _ =>
      .bind (checks_listFrom rfl rfl) fun _ => .done (checks_single rfl rfl)
  | .variableDefinition v =>
    simp only [Node.children, List.append_assoc]
    exact .bind (checks_single rfl rfl) fun _ => .bind (checks_single rfl rfl) fun _ =>
      .bind (checks_optional rfl rfl) fun _ => .done (checks_listFrom rfl rfl)
  | .selectionSet s => exact absurd rfl hset
  | .field f =>
    simp only [Node.children, List.append_assoc]
    exact .bind (checks_optional rfl rfl) fun _ => .bind (checks_single rfl rfl) fun _ =>
      .bind (checks_listFrom rfl rfl) fun _ => .bind (checks_listFrom rfl rfl) fun _ =>
      .done (checks_optional rfl rfl)
  | .fragmentSpread s =>
    exact .bind (checks_single rfl rfl) fun _ => .done (checks_listFrom rfl rfl)
  | .inlineFragment f =>
    simp only [Node.children, List.append_assoc]
    exact .bind (checks_optional rfl rfl) fun _ => .bind (checks_listFrom rfl rfl) fun _ =>
      .done (checks_single rfl rfl)
  | .argument _ | .objectField _ =>
    exact .bind (checks_single rfl rfl) fun _ => .done (checks_single rfl rfl)
  | .directive d =>
    exact .bind (checks_single rfl rfl) fun _ => .done (checks_listFrom rfl rfl)
  | .variable _ | .namedType _ => exact .done (checks_single rfl rfl)
  | .typeRef (.named _) | .typeRef (.list _) => exact .done (.done (checks_single rfl rfl))
  | .typeRef (.nonNull _) => exact absurd rfl hnonNull
  | .value (.list _) | .value (.object _) => exact .done (.done (checks_listFrom rfl rfl))
  | .name _ => exact checks_return _
  | .value .null | .value (.boolean _) | .value (.int _) | .value (.float _)
  | .value (.string ..) | .value (.enum _) | .value (.variable _) =>
    exact .done (checks_return _)

/-! ## The two rules besides -/

section Rules
variable {entries rest : List (Option Node)}

theorem kept_eq_nil_iff {old : List Child} (h : entries.length = old.length) :
    kept old entries = [] ↔ ∀ k, some k ∉ entries := by
  have hnodes := kept_nodes old entries
  rw [List.take_of_length_le (Nat.le_of_eq h)] at hnodes
  rw [← List.map_eq_nil_iff (f := (·.2)), hnodes, List.filterMap_eq_nil_iff]
  constructor
  · intro hall k hk
    cases hall (some k) hk
  · intro hnone entry hentry
    cases entry with
    | none => rfl
    | some k => exact absurd hentry (hnone k)

/-- A list that was read is empty if all its members were deleted. -/
theorem list_ne_nil_iff [IsNode α] [Plain α] {as bs : List α}
    (h : entries.length = (Child.members (as.map toNode)).length)
    (hread : Takes (list α as.length) entries bs rest) : bs ≠ [] ↔ ∃ k, some k ∈ entries := by
  have hkept : (Child.members (bs.map toNode)).map Child.holding =
      kept (Child.members (as.map toNode)) entries := (refilled_listFrom hread).2
  have hnil := kept_eq_nil_iff h
  rw [← hkept] at hnil
  cases bs with
  | nil => exact ⟨fun hne => absurd rfl hne, fun ⟨k, hk⟩ => absurd hk (hnil.mp rfl k)⟩
  | cons b bs =>
    have hsome : ¬ ∀ k, some k ∉ entries := fun hnone => nomatch hnil.mpr hnone
    exact ⟨fun _ => Classical.not_forall_not.mp hsome, fun _ => List.cons_ne_nil b bs⟩

/-- The type that was read is a non-null type if the entry is one. -/
theorem nullable_iff {t u : TypeRef} {entry : Option Node}
    (hread : Takes (required TypeRef .nonNullType .typeRef) [entry] u rest) :
    (∀ v, u ≠ .nonNull v) ↔ ∀ k, some k ∈ [entry] → k.kind ≠ .nonNullType := by
  have hkept := (refilled_single (n := toNode t) hread).2
  cases entry with
  | none => cases hkept
  | some k =>
    have hk : toNode u = k.plain := congrArg Prod.snd (List.singleton_inj.mp hkept)
    have hkind : u.kind = k.kind := by
      rw [← Node.kind_plain, ← hk]
      cases u <;> rfl
    simp only [List.mem_singleton, Option.some.injEq, forall_eq, ← hkind]
    cases u <;> simp [TypeRef.kind]

end Rules
end Refill

namespace Node
open Refill

variable {n m : Node} {entries : List (Option Node)}

theorem refill_selectionSet_iff {s : SelectionSet}
    (h : entries.length = (selectionSet s).children.length) :
    (∃ m, (selectionSet s).refill entries = .ok m) ↔ (selectionSet s).Suits entries := by
  have hchecks : Checks True (selectionSet s).Allows (list Selection s.selections.length)
      (selectionSet s).children := checks_listFrom rfl rfl
  constructor
  · rintro ⟨m, hm⟩
    obtain ⟨rest, hm⟩ := refill_iff_takes.mp hm
    obtain ⟨ss, mid, hss, -⟩ := takes_bind.mp hm
    obtain ⟨hread, hne⟩ := takes_selections.mp hss
    exact ⟨((hchecks.accepts h).mp ⟨ss, mid, hread⟩).2, fun _ => (list_ne_nil_iff h hread).mp hne,
      nofun⟩
  · intro hsuits
    obtain ⟨ss, rest, hread⟩ := (hchecks.accepts h).mpr ⟨trivial, hsuits.allowed⟩
    have hss := takes_selections.mpr ⟨hread, (list_ne_nil_iff h hread).mpr (hsuits.nonempty rfl)⟩
    exact ⟨_, refill_iff_takes.mpr ⟨rest, takes_bind.mpr ⟨ss, rest, hss, rfl⟩⟩⟩

theorem refill_nonNull_iff {t : TypeRef}
    (h : entries.length = (typeRef (.nonNull t)).children.length) :
    (∃ m, (typeRef (.nonNull t)).refill entries = .ok m) ↔
      (typeRef (.nonNull t)).Suits entries := by
  obtain ⟨entry, rfl⟩ := List.length_eq_one_iff.mp h
  have hchecks : Checks True (typeRef (.nonNull t)).Allows
      (required TypeRef .nonNullType .typeRef) (typeRef (.nonNull t)).children :=
    checks_single rfl rfl
  constructor
  · rintro ⟨m, hm⟩
    obtain ⟨rest, hm⟩ := refill_iff_takes.mp hm
    obtain ⟨v, mid, hv, -⟩ := takes_bind.mp hm
    obtain ⟨u, mid, hu, -⟩ := takes_bind.mp hv
    obtain ⟨hread, hne⟩ := takes_nullable.mp hu
    exact ⟨((hchecks.accepts h).mp ⟨u, mid, hread⟩).2, nofun,
      fun _ => (nullable_iff (t := t) hread).mp hne⟩
  · intro hsuits
    obtain ⟨u, rest, hread⟩ := (hchecks.accepts h).mpr ⟨trivial, hsuits.allowed⟩
    have hu := takes_nullable.mpr ⟨hread, (nullable_iff (t := t) hread).mpr (hsuits.nullable rfl)⟩
    exact ⟨_, refill_iff_takes.mpr ⟨rest, takes_bind.mpr
      ⟨_, rest, takes_bind.mpr ⟨u, rest, hu, rfl⟩, rfl⟩⟩⟩

theorem eq_nonNull (h : n.kind = .nonNullType) : ∃ t, n = .typeRef (.nonNull t) := by
  cases n with
  | typeRef t =>
    cases t with
    | nonNull t => exact ⟨t, rfl⟩
    | named _ | list _ => cases h
  | value v => cases v <;> cases h
  | _ => cases h

/-- A node can be rebuilt around entries just if they suit it. -/
theorem refill_ok_iff (h : entries.length = n.children.length) :
    (∃ m, n.refill entries = .ok m) ↔ n.Suits entries := by
  by_cases hset : n.shape = .selectionSet
  · cases n with
    | selectionSet s => exact refill_selectionSet_iff h
    | _ => cases hset
  by_cases hnonNull : n.kind = .nonNullType
  · obtain ⟨t, rfl⟩ := eq_nonNull hnonNull
    exact refill_nonNull_iff h
  have hiff := (checks_node n hset hnonNull).accepts h
  simp only [true_and] at hiff
  simp only [refill_iff_takes, hiff]
  exact ⟨fun hallowed => ⟨hallowed, fun hs => absurd hs hset, fun hk => absurd hk hnonNull⟩,
    fun hsuits => hsuits.allowed⟩

/-! ## What makes up a node -/

attribute [simp] ofNode?_toNode

/-- The parts of a type among children in a field. -/
def partsIn (α : Type) [IsNode α] (field : Option Segment) (cs : List Child) : List α :=
  cs.filterMap fun c => if c.field? = field then ofNode? c.node else none

section Parts
variable {α β : Type} [IsNode α] [IsNode β] {field : Option Segment}

theorem partsIn_of_holdings (h : m.holdings = n.holdings) :
    partsIn α field m.children = partsIn α field n.children := by
  have hparts := congrArg (List.filterMap fun x : Option Segment × Node =>
    if x.1 = field then (ofNode? x.2 : Option α) else none) h
  rwa [holdings, holdings, List.filterMap_map, List.filterMap_map] at hparts

@[simp] theorem partsIn_append (cs ds : List Child) :
    partsIn α field (cs ++ ds) = partsIn α field cs ++ partsIn α field ds :=
  List.filterMap_append

@[simp] theorem partsIn_listFrom (keys : List Segment) (i : Nat) (bs : List β) :
    partsIn α field (Child.listFrom keys i (bs.map toNode)) =
      if keys.find? (!·.isIndex) = field then bs.filterMap fun b => ofNode? (toNode b) else [] := by
  unfold partsIn
  induction bs generalizing i with
  | nil => simp [Child.listFrom]
  | cons b bs ih =>
    simp only [List.map_cons, Child.listFrom, List.filterMap_cons, Child.field?_member, ih]
    by_cases hfield : keys.find? (!·.isIndex) = field
    · simp only [hfield, if_true]
    · simp only [hfield, if_false]

@[simp] theorem partsIn_list (slot : Segment) (bs : List β) :
    partsIn α field (Child.list slot (bs.map toNode)) =
      if [slot].find? (!·.isIndex) = field then bs.filterMap fun b => ofNode? (toNode b) else [] :=
  partsIn_listFrom [slot] 0 bs

@[simp] theorem partsIn_members (bs : List β) :
    partsIn α field (Child.members (bs.map toNode)) =
      if none = field then bs.filterMap fun b => ofNode? (toNode b) else [] :=
  partsIn_listFrom [] 0 bs

@[simp] theorem partsIn_single (slot : Segment) (b : β) :
    partsIn α field (Child.single slot (toNode b)) =
      if [slot].find? (!·.isIndex) = field then (ofNode? (toNode b)).toList else [] := by
  unfold partsIn Child.single Child.field?
  rw [List.filterMap_cons, List.filterMap_nil]
  split <;> simp_all

@[simp] theorem partsIn_optional (slot : Segment) (o : Option β) :
    partsIn α field (Child.optional slot (o.map toNode)) =
      if [slot].find? (!·.isIndex) = field then (o.bind fun b => ofNode? (toNode b)).toList
      else [] := by
  cases o with
  | none => simp [Child.optional, partsIn]
  | some b => exact partsIn_single slot b

end Parts

/-- A node of the kind of another one and with its data, put together from the parts in each of its
fields. There is none if a part is missing. -/
def readBack (parts : (α : Type) → [IsNode α] → Option Segment → List α) : Node → Option Node
  | .document _ => return .document ⟨parts Definition none⟩
  | .operationDefinition o => do
    let set ← (parts SelectionSet (some .selectionSet)).head?
    return .operationDefinition ⟨o.operation, (parts Name (some .name)).head?,
      parts VariableDefinition (some .variableDefinitions), parts Directive (some .directives), set⟩
  | .fragmentDefinition _ => do
    let name ← (parts Name (some .name)).head?
    let condition ← (parts NamedType (some .typeCondition)).head?
    let set ← (parts SelectionSet (some .selectionSet)).head?
    return .fragmentDefinition ⟨name, condition, parts Directive (some .directives), set⟩
  | .variableDefinition _ => do
    let declared ← (parts Variable (some .variable)).head?
    let type ← (parts TypeRef (some .typeRef)).head?
    return .variableDefinition ⟨declared, type, (parts Value (some .defaultValue)).head?,
      parts Directive (some .directives)⟩
  | .selectionSet _ => return .selectionSet ⟨parts Selection none⟩
  | .field _ => do
    let name ← (parts Name (some .name)).head?
    return .field ⟨(parts Name (some .aliasName)).head?, name, parts Argument (some .arguments),
      parts Directive (some .directives), (parts SelectionSet (some .selectionSet)).head?⟩
  | .fragmentSpread _ => do
    let name ← (parts Name (some .name)).head?
    return .fragmentSpread ⟨name, parts Directive (some .directives)⟩
  | .inlineFragment _ => do
    let set ← (parts SelectionSet (some .selectionSet)).head?
    return .inlineFragment ⟨(parts NamedType (some .typeCondition)).head?,
      parts Directive (some .directives), set⟩
  | .argument _ => do
    let name ← (parts Name (some .name)).head?
    return .argument ⟨name, ← (parts Value (some .value)).head?⟩
  | .directive _ => do
    let name ← (parts Name (some .name)).head?
    return .directive ⟨name, parts Argument (some .arguments)⟩
  | .variable _ => return .variable ⟨← (parts Name (some .name)).head?⟩
  | .namedType _ => return .namedType ⟨← (parts Name (some .name)).head?⟩
  | .typeRef (.named _) => return .typeRef (.named ⟨← (parts Name (some .name)).head?⟩)
  | .typeRef (.list _) => return .typeRef (.list (← (parts TypeRef (some .typeRef)).head?))
  | .typeRef (.nonNull _) => return .typeRef (.nonNull (← (parts TypeRef (some .typeRef)).head?))
  | .value (.list _) => return .value (.list (parts Value none))
  | .value (.object _) => return .value (.object (parts ObjectField none))
  | .value v => return .value v
  | .objectField _ => do
    let name ← (parts Name (some .name)).head?
    return .objectField ⟨name, ← (parts Value (some .value)).head?⟩
  | .name x => return .name x

/-- A node is read back from its own fields. -/
theorem readBack_children (n : Node) :
    readBack (fun α _ field => partsIn α field n.children) n = some n := by
  match n with
  | .typeRef (.named _) => rfl
  | .typeRef (.list _) | .typeRef (.nonNull _) | .value (.list _) | .value (.object _) =>
    simp [readBack, children, childrenOfTypeRef, childrenOfValue, Segment.isIndex]
  | .document _ | .operationDefinition _ | .fragmentDefinition _ | .variableDefinition _
  | .selectionSet ⟨_⟩ | .field ⟨_, _, _, _, _⟩ | .fragmentSpread _ | .inlineFragment ⟨_, _, _⟩
  | .argument _ | .directive _ | .variable _ | .namedType _ | .objectField ⟨_, _⟩ =>
    simp [readBack, children, Segment.isIndex]
  | .name _ | .value .null | .value (.boolean _) | .value (.int _) | .value (.float _)
  | .value (.string ..) | .value (.enum _) | .value (.variable _) => rfl

theorem readBack_congr {parts : (α : Type) → [IsNode α] → Option Segment → List α}
    (h : m.Alike n) : readBack parts m = readBack parts n := by
  cases m with
  | operationDefinition o =>
    cases n with
    | operationDefinition p =>
      have hoperation : o.operation = p.operation := Datum.operation.inj h.datum
      simp only [readBack, hoperation]
    | _ => cases h.shape
  | name x =>
    cases n with
    | name y => exact congrArg (some <| name ⟨·⟩) (Datum.text.inj h.datum)
    | _ => cases h.shape
  | typeRef t =>
    cases n with
    | typeRef u => cases t <;> cases u <;> first | rfl | cases h.kind
    | _ => cases h.shape
  | value v =>
    cases n with
    | value w =>
      cases v with
      | list _ | object _ => cases w <;> first | rfl | cases h.kind
      -- All other values have nothing below them, so they are their own data.
      | _ =>
        cases w with
        | list _ | object _ => cases h.datum
        | _ => exact congrArg (some <| value ·) (Datum.literal.inj h.datum)
    | _ => cases h.shape
  | _ => cases n <;> first | rfl | cases h.shape

/-- A node is made up of its kind, its own data and what it holds in its fields. -/
theorem Alike.eq_of_holdings (h : m.Alike n) (hholdings : m.holdings = n.holdings) : m = n := by
  have hparts : (fun α [IsNode α] field => partsIn α field m.children) =
      fun α [IsNode α] field => partsIn α field n.children := by
    funext α _ field
    exact partsIn_of_holdings hholdings
  have hread : some m = some n := by
    rw [← readBack_children m, hparts, readBack_congr h, readBack_children]
  exact Option.some.inj hread

/-! ## Children in their own fields -/

section Own
variable {α : Type} [IsNode α]

theorem fits_toNode (a : α) : Fits α (toNode a) := by
  rw [Fits, ofNode?_toNode]
  rfl

theorem admits_single {slot : Segment} {a : α}
    (h : n.Admits ([slot].find? (!·.isIndex)) = Fits α) :
    ∀ c ∈ Child.single slot (toNode a), n.Admits c.field? c.node := by
  refine List.forall_mem_singleton.mpr ?_
  show n.Admits ([slot].find? (!·.isIndex)) (toNode a)
  rw [h]
  exact fits_toNode a

theorem admits_optional {slot : Segment} {o : Option α}
    (h : n.Admits ([slot].find? (!·.isIndex)) = Fits α) :
    ∀ c ∈ Child.optional slot (o.map toNode), n.Admits c.field? c.node := by
  cases o with
  | none => exact List.forall_mem_nil _
  | some a => exact admits_single h

theorem admits_listFrom {keys : List Segment} {i : Nat} {as : List α}
    (h : n.Admits (keys.find? (!·.isIndex)) = Fits α) :
    ∀ c ∈ Child.listFrom keys i (as.map toNode), n.Admits c.field? c.node := by
  induction as generalizing i with
  | nil => exact List.forall_mem_nil _
  | cons a as ih =>
    refine List.forall_mem_cons.mpr ⟨?_, ih⟩
    rw [Child.field?_member, h]
    exact fits_toNode a

end Own

/-- Each child fits the field that it is in. -/
theorem admits_child (n : Node) : ∀ c ∈ n.children, n.Admits c.field? c.node := by
  match n with
  | .document _ | .selectionSet _ | .value (.list _) | .value (.object _) =>
    exact admits_listFrom rfl
  | .operationDefinition _ =>
    simp only [children, List.forall_mem_append]
    exact ⟨⟨⟨admits_optional rfl, admits_listFrom rfl⟩, admits_listFrom rfl⟩, admits_single rfl⟩
  | .fragmentDefinition _ =>
    simp only [children, List.forall_mem_append]
    exact ⟨⟨⟨admits_single rfl, admits_single rfl⟩, admits_listFrom rfl⟩, admits_single rfl⟩
  | .variableDefinition _ =>
    simp only [children, List.forall_mem_append]
    exact ⟨⟨⟨admits_single rfl, admits_single rfl⟩, admits_optional rfl⟩, admits_listFrom rfl⟩
  | .field _ =>
    simp only [children, List.forall_mem_append]
    exact ⟨⟨⟨⟨admits_optional rfl, admits_single rfl⟩, admits_listFrom rfl⟩, admits_listFrom rfl⟩,
      admits_optional rfl⟩
  | .inlineFragment _ =>
    simp only [children, List.forall_mem_append]
    exact ⟨⟨admits_optional rfl, admits_listFrom rfl⟩, admits_single rfl⟩
  | .fragmentSpread _ | .directive _ =>
    exact List.forall_mem_append.mpr ⟨admits_single rfl, admits_listFrom rfl⟩
  | .argument _ | .objectField _ =>
    exact List.forall_mem_append.mpr ⟨admits_single rfl, admits_single rfl⟩
  | .variable _ | .namedType _ | .typeRef (.list _) | .typeRef (.nonNull _) =>
    exact admits_single rfl
  | .typeRef (.named t) => exact List.forall_mem_singleton.mpr (fits_toNode t.name)
  | .name _ | .value .null | .value (.boolean _) | .value (.int _) | .value (.float _)
  | .value (.string ..) | .value (.enum _) | .value (.variable _) => exact List.forall_mem_nil _

theorem plain_toNode {α : Type} [IsNode α] [Plain α] (a : α) : (toNode a).plain = toNode a :=
  (Plain.toNode_eq (ofNode?_toNode a)).symm

theorem plain_child : ∀ c ∈ n.children, c.node.plain = c.node := by
  match n with
  | .document _ | .operationDefinition _ | .fragmentDefinition _ | .variableDefinition _
  | .selectionSet _ | .field _ | .fragmentSpread _ | .inlineFragment _ | .argument _
  | .directive _ | .variable _ | .namedType _ | .objectField _ | .typeRef (.list _)
  | .typeRef (.nonNull _) | .value (.list _) | .value (.object _) =>
    simp [children, childrenOfTypeRef, childrenOfValue, or_imp, forall_and,
      Child.forall_single (P := fun k => k.plain = k),
      Child.forall_optional (P := fun k => k.plain = k),
      Child.forall_list (P := fun k => k.plain = k),
      Child.forall_members (P := fun k => k.plain = k), plain_toNode]
  | .typeRef (.named t) => exact List.forall_mem_singleton.mpr rfl
  | .name _ | .value .null | .value (.boolean _) | .value (.int _) | .value (.float _)
  | .value (.string ..) | .value (.enum _) | .value (.variable _) => exact List.forall_mem_nil _

theorem kept_children (cs : List Child) (h : ∀ c ∈ cs, c.node.plain = c.node) :
    kept cs (cs.map (some ·.node)) = cs.map Child.holding := by
  induction cs with
  | nil => exact kept_nil
  | cons c cs ih =>
    rw [List.map_cons, kept_cons, ih fun d hd => h d (List.mem_cons_of_mem c hd)]
    simp [Child.holding, h c List.mem_cons_self]

/-- A node can be rebuilt around entries for its children just if each of them fits the field
that the child is in, no child is missed there, a selection set keeps a selection and a
non-null type gets no other one inside. The new node has the kind and the data of the node, and
it holds just the kept entries, in their order and each in the field of the child that it is
for. In particular nothing is changed by entries that are the children themselves. -/
theorem refill_in_place (h : entries.length = n.children.length) :
    ((∃ m, n.refill entries = .ok m) ↔ n.Suits entries) ∧
      ∀ m, n.refill entries = .ok m → m.Alike n ∧ m.holdings = kept n.children entries ∧
        (entries = n.children.map (some ·.node) → m = n) := by
  refine ⟨refill_ok_iff h, fun m hm => ⟨alike_refill hm, holdings_refill hm, ?_⟩⟩
  rintro rfl
  refine (alike_refill hm).eq_of_holdings ?_
  rw [holdings_refill hm, kept_children n.children plain_child, holdings]

/-- The field `x: a` without its alias and with another name. -/
theorem refill_in_place_unaliased :
    let n := field ⟨some ⟨"x"⟩, ⟨"a"⟩, [], [], none⟩
    let entries := [none, some (name ⟨"b"⟩)]
    entries.length = n.children.length ∧
      ((∃ m, n.refill entries = .ok m) ↔ n.Suits entries) ∧
      ∀ m, n.refill entries = .ok m → m.Alike n ∧ m.holdings = kept n.children entries ∧
        (entries = n.children.map (some ·.node) → m = n) :=
  ⟨rfl, refill_in_place rfl⟩

end Node
end QueryDoc
