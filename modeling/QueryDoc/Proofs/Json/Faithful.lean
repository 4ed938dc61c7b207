import QueryDoc.Json.Tree

/-! A tree can be recovered from its JSON. The members of an object are found under their
keys whatever order they were given in, so the object of a node tells its kind and then
each part of it; two nodes have the same JSON exactly where they are the same up to the
form of a variable or of a named type. -/
namespace QueryDoc

/-! ## The members of an object -/

namespace Json

theorem lookup_cons (key : String) (m : JsonMember) (ms : List JsonMember) :
    lookup key (m :: ms) = if m.key = key then some m.value else lookup key ms := by
  by_cases h : m.key = key <;> simp [lookup, h]

/-- Putting in a member changes what is found under its key only. -/
theorem lookup_insert (key other : String) (value : Json) (ms : List JsonMember) :
    lookup other (insert key value ms) =
      if key = other then some value else lookup other ms := by
  induction ms with
  | nil => simp [insert, lookup_cons]
  | cons m ms ih =>
    simp only [insert]
    split
    · simp [lookup_cons]
    · split
      · rename_i heq
        by_cases h : key = other <;> simp [lookup_cons, ← heq, h]
      · rename_i hne
        by_cases h : m.key = other
        · have : key ≠ other := fun heq => hne (heq.trans h.symm)
          simp [lookup_cons, h, this]
        · simp [lookup_cons, h, ih]

/-- What stands under a key of an object. -/
def member? (key : String) : Json → Option Json
  | .object ms => lookup key ms
  | _ => none

/-- Members put in under other keys do not change what is found. -/
theorem lookup_foldl_insert {key : String} {ms : List (String × Json)}
    (absent : key ∉ ms.map (·.1)) (start : List JsonMember) :
    lookup key (ms.foldl (fun ms (key, value) => insert key value ms) start) =
      lookup key start := by
  induction ms generalizing start with
  | nil => rfl
  | cons m ms ih =>
    rw [List.map_cons, List.mem_cons, not_or] at absent
    rw [List.foldl_cons, ih absent.2, lookup_insert, if_neg (Ne.symm absent.1)]

/-- Each of the members that an object is made of is found under its key, if no two of
them have the same one. -/
theorem member?_ofMembers {ms : List (String × Json)} (distinct : (ms.map (·.1)).Nodup)
    {key : String} {value : Json} (hm : (key, value) ∈ ms) :
    member? key (ofMembers ms) = some value := by
  obtain ⟨before, after, rfl⟩ := List.append_of_mem hm
  rw [List.map_append, List.map_cons] at distinct
  have absent : key ∉ after.map (·.1) := (List.nodup_cons.mp (List.nodup_append.mp distinct).2.1).1
  simp only [ofMembers, member?, List.foldl_append, List.foldl_cons]
  rw [lookup_foldl_insert absent, lookup_insert, if_pos rfl]

/-- Members with the same keys in the same order, no key twice, make the same object only
where their values are the same. -/
theorem ofMembers_injective {ms ns : List (String × Json)}
    (keys : ms.map (·.1) = ns.map (·.1)) (distinct : (ms.map (·.1)).Nodup)
    (h : ofMembers ms = ofMembers ns) : ms = ns := by
  have length : ms.length = ns.length := by simpa using congrArg List.length keys
  apply List.ext_getElem length
  intro i hi hj
  have key : ms[i].1 = ns[i].1 := by
    have := List.getElem_of_eq keys (by simpa using hi)
    simpa using this
  have left : member? ms[i].1 (ofMembers ms) = some ms[i].2 :=
    member?_ofMembers distinct (List.getElem_mem hi)
  have right : member? ns[i].1 (ofMembers ns) = some ns[i].2 :=
    member?_ofMembers (keys ▸ distinct) (List.getElem_mem hj)
  rw [h, key, right, Option.some.injEq] at left
  exact Prod.ext key left.symm

end Json

/-! ## The object of a node -/

namespace Kind

theorem ofId?_id (k : Kind) : ofId? k.id = some k := by cases k <;> rfl

theorem id_injective {k l : Kind} (h : k.id = l.id) : k = l := by
  have hk := ofId?_id k
  rw [h, ofId?_id l] at hk
  exact (Option.some.inj hk).symm

/-- An object of a node tells the kind of the node. -/
theorem member?_kind {k : Kind} {ms : List (String × Json)} (other : "kind" ∉ ms.map (·.1)) :
    (k.toJson ms).member? "kind" = some (.string k.id) := by
  simp only [toJson, Json.ofMembers, Json.member?, List.foldl_cons]
  rw [Json.lookup_foldl_insert other, Json.lookup_insert, if_pos rfl]

/-- Objects of nodes of one kind with the same keys are the same where their members
are. -/
theorem toJson_inj {k : Kind} {ms ns : List (String × Json)} (keys : List String)
    (distinct : ("kind" :: keys).Nodup) (hms : ms.map (·.1) = keys) (hns : ns.map (·.1) = keys) :
    k.toJson ms = k.toJson ns ↔ ms = ns := by
  constructor
  · intro h
    have := Json.ofMembers_injective (by simp [hms, hns]) (by simpa [hms] using distinct) h
    exact (List.cons.inj this).2
  · intro h
    rw [h]

theorem toJson_ne_null {k : Kind} {ms : List (String × Json)} : k.toJson ms ≠ .null := by
  simp [toJson, Json.ofMembers]

end Kind

/-- A child that may be missing is told from the member for it. -/
theorem Json.optional_inj {α : Type} {toTree : α → Json} {a b : Option α}
    (inj : ∀ x y, toTree x = toTree y → x = y) (present : ∀ x, toTree x ≠ .null) :
    Json.optional (a.map toTree) = Json.optional (b.map toTree) ↔ a = b := by
  constructor
  · intro h
    match a, b with
    | none, none => rfl
    | some x, some y => rw [inj x y h]
    | none, some y => exact absurd h.symm (present y)
    | some x, none => exact absurd h (present x)
  · intro h
    rw [h]

namespace Node

/-- The JSON of a node tells its kind. -/
theorem member?_kind (n : Node) : n.toTree.member? "kind" = some (.string n.kind.id) := by
  match n with
  | .value .null | .value (.boolean _) | .value (.int _) | .value (.float _)
  | .value (.string ..) | .value (.enum _) | .value (.variable _) | .value (.list _)
  | .value (.object _) => exact Kind.member?_kind (by simp)
  | .typeRef (.named _) | .typeRef (.list _) | .typeRef (.nonNull _) =>
    exact Kind.member?_kind (by simp)
  | .field ⟨_, _, _, _, _⟩ | .inlineFragment ⟨_, _, _⟩ | .selectionSet ⟨_⟩
  | .document _ | .operationDefinition _ | .fragmentDefinition _ | .variableDefinition _
  | .fragmentSpread _ | .argument _ | .directive _ | .variable _ | .name _ | .namedType _
  | .objectField _ => exact Kind.member?_kind (by simp [Json.directives])

theorem kind_eq_of_toTree {a b : Node} (h : a.toTree = b.toTree) : a.kind = b.kind := by
  have := congrArg (Json.member? "kind") h
  rw [member?_kind, member?_kind] at this
  exact Kind.id_injective (Json.string.inj (Option.some.inj this))

@[simp] theorem toTree_ofSelection (s : Selection) : (ofSelection s).toTree = s.toTree := by
  cases s <;> rfl

@[simp] theorem toTree_ofDefinition (d : Definition) : (ofDefinition d).toTree = d.toTree := by
  cases d <;> rfl

end Node

/-! ## Names, types and values -/

namespace Name

@[simp] theorem toTree_inj {a b : Name} : a.toTree = b.toTree ↔ a = b := by
  refine (Kind.toJson_inj ["value"] (by decide) rfl rfl).trans ?_
  obtain ⟨x⟩ := a
  obtain ⟨y⟩ := b
  simp

end Name

namespace Variable

@[simp] theorem toTree_inj {a b : Variable} : a.toTree = b.toTree ↔ a = b := by
  refine (Kind.toJson_inj ["name"] (by decide) rfl rfl).trans ?_
  obtain ⟨x⟩ := a
  obtain ⟨y⟩ := b
  simp

end Variable

namespace NamedType

@[simp] theorem toTree_inj {a b : NamedType} : a.toTree = b.toTree ↔ a = b := by
  refine (Kind.toJson_inj ["name"] (by decide) rfl rfl).trans ?_
  obtain ⟨x⟩ := a
  obtain ⟨y⟩ := b
  simp

end NamedType

namespace TypeRef

theorem kind_eq_of_toTree {a b : TypeRef} (h : a.toTree = b.toTree) : a.kind = b.kind :=
  Node.kind_eq_of_toTree (a := .typeRef a) (b := .typeRef b) h

theorem toTree_injective (a b : TypeRef) (h : a.toTree = b.toTree) : a = b := by
  match a, b, kind_eq_of_toTree h with
  | .named s, .named t, _ =>
    rw [NamedType.toTree_inj.mp h]
  | .list s, .list t, _ =>
    have := (Kind.toJson_inj ["type"] (by decide) rfl rfl).mp h
    rw [toTree_injective s t (by simpa using this)]
  | .nonNull s, .nonNull t, _ =>
    have := (Kind.toJson_inj ["type"] (by decide) rfl rfl).mp h
    rw [toTree_injective s t (by simpa using this)]

@[simp] theorem toTree_inj {a b : TypeRef} : a.toTree = b.toTree ↔ a = b :=
  ⟨toTree_injective a b, congrArg toTree⟩

end TypeRef

theorem Value.kind_eq_of_toTree {a b : Value} (h : a.toTree = b.toTree) : a.kind = b.kind :=
  Node.kind_eq_of_toTree (a := .value a) (b := .value b) h

mutual

theorem Value.toTree_injective (a b : Value) (h : a.toTree = b.toTree) : a = b := by
  match a, b, Value.kind_eq_of_toTree h with
  | .null, .null, _ => rfl
  | .boolean x, .boolean y, _ =>
    simpa using (Kind.toJson_inj ["value"] (by decide) rfl rfl).mp h
  | .int x, .int y, _ =>
    simpa using (Kind.toJson_inj ["value"] (by decide) rfl rfl).mp h
  | .float x, .float y, _ =>
    simpa using (Kind.toJson_inj ["value"] (by decide) rfl rfl).mp h
  | .string x p, .string y q, _ =>
    simpa using (Kind.toJson_inj ["value", "block"] (by decide) rfl rfl).mp h
  | .enum x, .enum y, _ =>
    simpa using (Kind.toJson_inj ["value"] (by decide) rfl rfl).mp h
  | .variable x, .variable y, _ =>
    rw [Variable.toTree_inj.mp h]
  | .list xs, .list ys, _ =>
    have := (Kind.toJson_inj ["values"] (by decide) rfl rfl).mp h
    rw [Value.toTreeList_injective xs ys (by simpa using this)]
  | .object xs, .object ys, _ =>
    have := (Kind.toJson_inj ["fields"] (by decide) rfl rfl).mp h
    rw [Value.toTreeFields_injective xs ys (by simpa using this)]
termination_by structural a

theorem Value.toTreeList_injective (as bs : List Value)
    (h : Value.toTreeList as = Value.toTreeList bs) : as = bs := by
  match as, bs with
  | [], [] => rfl
  | a :: as, b :: bs =>
    obtain ⟨ha, has⟩ := List.cons.inj h
    rw [Value.toTree_injective a b ha, Value.toTreeList_injective as bs has]
  | [], _ :: _ => cases h
  | _ :: _, [] => cases h
termination_by structural as

theorem Value.toTreeFields_injective (as bs : List ObjectField)
    (h : Value.toTreeFields as = Value.toTreeFields bs) : as = bs := by
  match as, bs with
  | [], [] => rfl
  | ⟨m, a⟩ :: as, ⟨n, b⟩ :: bs =>
    obtain ⟨hf, has⟩ := List.cons.inj h
    have := (Kind.toJson_inj ["name", "value"] (by decide) rfl rfl).mp hf
    obtain ⟨hm, ha⟩ : m = n ∧ a.toTree = b.toTree := by simpa using this
    rw [hm, Value.toTree_injective a b ha, Value.toTreeFields_injective as bs has]
  | [], ⟨_, _⟩ :: _ => cases h
  | ⟨_, _⟩ :: _, [] => cases h
termination_by structural as

end

@[simp] theorem Value.toTree_inj {a b : Value} : a.toTree = b.toTree ↔ a = b :=
  ⟨Value.toTree_injective a b, congrArg Value.toTree⟩

/-! ## Arguments, directives and selections -/

namespace Argument

@[simp] theorem toTree_inj {a b : Argument} : a.toTree = b.toTree ↔ a = b := by
  refine (Kind.toJson_inj ["name", "value"] (by decide) rfl rfl).trans ?_
  obtain ⟨m, v⟩ := a
  obtain ⟨n, w⟩ := b
  simp

end Argument

namespace Directive

@[simp] theorem toTree_inj {a b : Directive} : a.toTree = b.toTree ↔ a = b := by
  refine (Kind.toJson_inj ["name", "arguments"] (by decide) rfl rfl).trans ?_
  obtain ⟨m, as⟩ := a
  obtain ⟨n, bs⟩ := b
  simp [List.map_inj_right]

end Directive

@[simp] theorem Json.directives_inj {as bs : List Directive} :
    Json.directives as = Json.directives bs ↔ as = bs := by
  simp [Json.directives, List.map_inj_right]

namespace FragmentSpread

@[simp] theorem toTree_inj {a b : FragmentSpread} : a.toTree = b.toTree ↔ a = b := by
  refine (Kind.toJson_inj ["name", "directives"] (by decide) rfl rfl).trans ?_
  obtain ⟨m, ds⟩ := a
  obtain ⟨n, es⟩ := b
  simp

end FragmentSpread

@[simp] theorem Name.optional_inj {a b : Option Name} :
    Json.optional (a.map (·.toTree)) = Json.optional (b.map (·.toTree)) ↔ a = b :=
  Json.optional_inj (fun _ _ => Name.toTree_inj.mp) (fun _ => Kind.toJson_ne_null)

@[simp] theorem NamedType.optional_inj {a b : Option NamedType} :
    Json.optional (a.map (·.toTree)) = Json.optional (b.map (·.toTree)) ↔ a = b :=
  Json.optional_inj (fun _ _ => NamedType.toTree_inj.mp) (fun _ => Kind.toJson_ne_null)

theorem Value.toTree_ne_null : (v : Value) → v.toTree ≠ .null
  | .null | .boolean _ | .int _ | .float _ | .string .. | .enum _ | .variable _ | .list _
  | .object _ => Kind.toJson_ne_null

@[simp] theorem Value.optional_inj {a b : Option Value} :
    Json.optional (a.map (·.toTree)) = Json.optional (b.map (·.toTree)) ↔ a = b :=
  Json.optional_inj (fun _ _ => Value.toTree_inj.mp) Value.toTree_ne_null

theorem Selection.kind_eq_of_toTree {a b : Selection} (h : a.toTree = b.toTree) :
    (Node.ofSelection a).kind = (Node.ofSelection b).kind :=
  Node.kind_eq_of_toTree (by simpa using h)

mutual

theorem Selection.toTree_injective (a b : Selection) (h : a.toTree = b.toTree) : a = b := by
  match a, b, Selection.kind_eq_of_toTree h with
  | .field f, .field g, _ =>
    rw [Field.toTree_injective f g h]
  | .fragmentSpread s, .fragmentSpread t, _ =>
    rw [FragmentSpread.toTree_inj.mp h]
  | .inlineFragment f, .inlineFragment g, _ =>
    rw [InlineFragment.toTree_injective f g h]
termination_by structural a

theorem Field.toTree_injective (f g : Field) (h : f.toTree = g.toTree) : f = g := by
  match f, g with
  | ⟨a, m, as, ds, s⟩, ⟨b, n, bs, es, t⟩ =>
    have := (Kind.toJson_inj ["alias", "name", "arguments", "directives", "selectionSet"]
      (by decide) rfl rfl).mp h
    obtain ⟨ha, hm, has, hds, hs⟩ : a = b ∧ m = n ∧ as = bs ∧ ds = es ∧
        SelectionSet.toTreeOption s = SelectionSet.toTreeOption t := by
      simpa [List.map_inj_right] using this
    rw [ha, hm, has, hds, SelectionSet.toTreeOption_injective s t hs]
termination_by structural f

theorem InlineFragment.toTree_injective (f g : InlineFragment) (h : f.toTree = g.toTree) :
    f = g := by
  match f, g with
  | ⟨c, ds, s⟩, ⟨d, es, t⟩ =>
    have := (Kind.toJson_inj ["typeCondition", "directives", "selectionSet"]
      (by decide) rfl rfl).mp h
    obtain ⟨hc, hds, hs⟩ : c = d ∧ ds = es ∧ s.toTree = t.toTree := by simpa using this
    rw [hc, hds, SelectionSet.toTree_injective s t hs]
termination_by structural f

theorem SelectionSet.toTree_injective (s t : SelectionSet) (h : s.toTree = t.toTree) :
    s = t := by
  match s, t with
  | ⟨as⟩, ⟨bs⟩ =>
    have := (Kind.toJson_inj ["selections"] (by decide) rfl rfl).mp h
    rw [Selection.toTreeList_injective as bs (by simpa using this)]
termination_by structural s

theorem SelectionSet.toTreeOption_injective (s t : Option SelectionSet)
    (h : SelectionSet.toTreeOption s = SelectionSet.toTreeOption t) : s = t := by
  match s, t with
  | none, none => rfl
  | some s, some t => rw [SelectionSet.toTree_injective s t h]
  | none, some ⟨_⟩ => exact absurd h.symm Kind.toJson_ne_null
  | some ⟨_⟩, none => exact absurd h Kind.toJson_ne_null
termination_by structural s

theorem Selection.toTreeList_injective (as bs : List Selection)
    (h : Selection.toTreeList as = Selection.toTreeList bs) : as = bs := by
  match as, bs with
  | [], [] => rfl
  | a :: as, b :: bs =>
    obtain ⟨ha, has⟩ := List.cons.inj h
    rw [Selection.toTree_injective a b ha, Selection.toTreeList_injective as bs has]
  | [], _ :: _ => cases h
  | _ :: _, [] => cases h
termination_by structural as

end

@[simp] theorem SelectionSet.toTree_inj {s t : SelectionSet} : s.toTree = t.toTree ↔ s = t :=
  ⟨SelectionSet.toTree_injective s t, congrArg SelectionSet.toTree⟩

/-! ## Definitions and documents -/

theorem OperationKind.keyword_inj {k l : OperationKind} : k.keyword = l.keyword ↔ k = l := by
  constructor
  · intro h
    have := congrArg OperationKind.ofKeyword? h
    simpa [OperationKind.ofKeyword?_keyword] using this
  · intro h
    rw [h]

namespace VariableDefinition

@[simp] theorem toTree_inj {a b : VariableDefinition} : a.toTree = b.toTree ↔ a = b := by
  refine (Kind.toJson_inj ["variable", "type", "defaultValue", "directives"]
    (by decide) rfl rfl).trans ?_
  obtain ⟨v, s, p, ds⟩ := a
  obtain ⟨w, t, q, es⟩ := b
  simp

end VariableDefinition

namespace OperationDefinition

@[simp] theorem toTree_inj {a b : OperationDefinition} : a.toTree = b.toTree ↔ a = b := by
  refine (Kind.toJson_inj
    ["operation", "name", "variableDefinitions", "directives", "selectionSet"]
    (by decide) rfl rfl).trans ?_
  obtain ⟨k, m, vs, ds, s⟩ := a
  obtain ⟨l, n, ws, es, t⟩ := b
  simp [OperationKind.keyword_inj, List.map_inj_right]

end OperationDefinition

namespace FragmentDefinition

@[simp] theorem toTree_inj {a b : FragmentDefinition} : a.toTree = b.toTree ↔ a = b := by
  refine (Kind.toJson_inj ["name", "typeCondition", "directives", "selectionSet"]
    (by decide) rfl rfl).trans ?_
  obtain ⟨m, c, ds, s⟩ := a
  obtain ⟨n, d, es, t⟩ := b
  simp

end FragmentDefinition

namespace Definition

theorem toTree_injective (a b : Definition) (h : a.toTree = b.toTree) : a = b := by
  have hk : (Node.ofDefinition a).kind = (Node.ofDefinition b).kind :=
    Node.kind_eq_of_toTree (by simpa using h)
  match a, b, hk with
  | .operation o, .operation p, _ => rw [OperationDefinition.toTree_inj.mp h]
  | .fragment f, .fragment g, _ => rw [FragmentDefinition.toTree_inj.mp h]

@[simp] theorem toTree_inj {a b : Definition} : a.toTree = b.toTree ↔ a = b :=
  ⟨toTree_injective a b, congrArg toTree⟩

end Definition

namespace Document

@[simp] theorem toTree_inj {a b : Document} : a.toTree = b.toTree ↔ a = b := by
  refine (Kind.toJson_inj ["definitions"] (by decide) rfl rfl).trans ?_
  obtain ⟨xs⟩ := a
  obtain ⟨ys⟩ := b
  simp [List.map_inj_right]

end Document

/-! ## Nodes -/

namespace Node

/-- The form in which a variable or a named type stands does not show in the JSON. -/
theorem toTree_plain (n : Node) : n.plain.toTree = n.toTree := by
  match n with
  | .value v => cases v <;> rfl
  | .typeRef t => cases t <;> rfl
  | .document _ | .operationDefinition _ | .fragmentDefinition _ | .variableDefinition _
  | .selectionSet _ | .field _ | .fragmentSpread _ | .inlineFragment _ | .argument _
  | .directive _ | .variable _ | .name _ | .namedType _ | .objectField _ => rfl

/-- A node with the kind of a value is a value. -/
theorem value_of_kind (n : Node) {v : Value} (hk : n.kind = v.kind) :
    ∃ w : Value, n.plain = ofValue w ∧ n.toTree = w.toTree := by
  cases n with
  | value w => exact ⟨w, rfl, rfl⟩
  | «variable» x => exact ⟨.variable x, rfl, rfl⟩
  | typeRef t => cases t <;> cases v <;> cases hk
  | _ => cases v <;> cases hk

/-- A node with the kind of a type is a type. -/
theorem typeRef_of_kind (n : Node) {t : TypeRef} (hk : n.kind = t.kind) :
    ∃ u : TypeRef, n.plain = ofTypeRef u ∧ n.toTree = u.toTree := by
  cases n with
  | typeRef u => exact ⟨u, rfl, rfl⟩
  | namedType x => exact ⟨.named x, rfl, rfl⟩
  | value v => cases v <;> cases t <;> cases hk
  | _ => cases t <;> cases hk

theorem plain_of_toTree_value {n : Node} {v : Value} (h : n.toTree = v.toTree) :
    n.plain = ofValue v := by
  obtain ⟨w, hplain, htree⟩ := value_of_kind n (v := v) (kind_eq_of_toTree (b := .value v) h)
  rw [hplain, Value.toTree_inj.mp (htree.symm.trans h)]

theorem plain_of_toTree_typeRef {n : Node} {t : TypeRef} (h : n.toTree = t.toTree) :
    n.plain = ofTypeRef t := by
  obtain ⟨u, hplain, htree⟩ :=
    typeRef_of_kind n (t := t) (kind_eq_of_toTree (b := .typeRef t) h)
  rw [hplain, TypeRef.toTree_inj.mp (htree.symm.trans h)]

theorem plain_eq_of_toTree (a b : Node) (h : a.toTree = b.toTree) : a.plain = b.plain := by
  match a, b, kind_eq_of_toTree h with
  | .value v, b, _ => exact (plain_of_toTree_value h.symm).symm
  | .typeRef t, b, _ => exact (plain_of_toTree_typeRef h.symm).symm
  | a, .value v, _ => exact plain_of_toTree_value h
  | a, .typeRef t, _ => exact plain_of_toTree_typeRef h
  | .document x, .document y, _ => rw [Document.toTree_inj.mp h]
  | .operationDefinition x, .operationDefinition y, _ =>
    rw [OperationDefinition.toTree_inj.mp h]
  | .fragmentDefinition x, .fragmentDefinition y, _ => rw [FragmentDefinition.toTree_inj.mp h]
  | .variableDefinition x, .variableDefinition y, _ => rw [VariableDefinition.toTree_inj.mp h]
  | .selectionSet x, .selectionSet y, _ => rw [SelectionSet.toTree_inj.mp h]
  | .field x, .field y, _ => rw [Field.toTree_injective x y h]
  | .fragmentSpread x, .fragmentSpread y, _ => rw [FragmentSpread.toTree_inj.mp h]
  | .inlineFragment x, .inlineFragment y, _ => rw [InlineFragment.toTree_injective x y h]
  | .argument x, .argument y, _ => rw [Argument.toTree_inj.mp h]
  | .directive x, .directive y, _ => rw [Directive.toTree_inj.mp h]
  | .variable x, .variable y, _ => rw [Variable.toTree_inj.mp h]
  | .name x, .name y, _ => rw [Name.toTree_inj.mp h]
  | .namedType x, .namedType y, _ => rw [NamedType.toTree_inj.mp h]
  | .objectField ⟨m, v⟩, .objectField ⟨n, w⟩, _ =>
    have := (Kind.toJson_inj ["name", "value"] (by decide) rfl rfl).mp h
    obtain ⟨hm, hv⟩ : m = n ∧ v = w := by simpa using this
    rw [hm, hv]

/-- Nodes have the same JSON exactly where they are the same up to the form in which a
variable or a named type stands. -/
theorem toTree_eq_iff (a b : Node) : a.toTree = b.toTree ↔ a.plain = b.plain := by
  constructor
  · exact plain_eq_of_toTree a b
  · intro h
    rw [← toTree_plain a, ← toTree_plain b, h]

end Node
end QueryDoc
