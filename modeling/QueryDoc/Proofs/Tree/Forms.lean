import QueryDoc.Proofs.Tree.Refill

/-! Nodes in two forms. A variable may stand as itself or as a value, and a named type as
itself or as a type. The two forms have the same kind, and an entry for a child is read the
same in either, so that rebuilding gives the same node up to its own form. A named type has
the same children in both forms; a variable has its name below it in the plain form only. -/
namespace QueryDoc

/-- The same error, or results that are related. -/
inductive OutcomesAlike {α β : Type} (R : α → β → Prop) :
    Except Error α → Except Error β → Prop where
  | error (e : Error) : OutcomesAlike R (.error e) (.error e)
  | ok {a : α} {b : β} (h : R a b) : OutcomesAlike R (.ok a) (.ok b)

namespace OutcomesAlike

variable {α β α' β' : Type} {R : α → β → Prop} {R' : α' → β' → Prop}
variable {x : Except Error α} {y : Except Error β}

theorem imp (h : OutcomesAlike R x y) {S : α → β → Prop} (himp : ∀ a b, R a b → S a b) :
    OutcomesAlike S x y := by
  cases h with
  | error e => exact .error e
  | ok h => exact .ok (himp _ _ h)

theorem symm (h : OutcomesAlike R x y) : OutcomesAlike (fun b a => R a b) y x := by
  cases h with
  | error e => exact .error e
  | ok h => exact .ok h

theorem bind (h : OutcomesAlike R x y) {f : α → Except Error α'} {g : β → Except Error β'}
    (hfg : ∀ a b, R a b → OutcomesAlike R' (f a) (g b)) :
    OutcomesAlike R' (x >>= f) (y >>= g) := by
  cases h with
  | error e => exact .error e
  | ok h => exact hfg _ _ h

theorem map (h : OutcomesAlike R x y) {f : α → α'} {g : β → β'}
    (hfg : ∀ a b, R a b → R' (f a) (g b)) : OutcomesAlike R' (x.map f) (y.map g) := by
  cases h with
  | error e => exact .error e
  | ok h => exact .ok (hfg _ _ h)

end OutcomesAlike

namespace Node

/-- The same node, or two forms of one. The forms of variables count only where `vars`
says so. -/
inductive Twins (vars : Bool) : Node → Node → Prop where
  | same (n : Node) : Twins vars n n
  | rawType (t : NamedType) : Twins vars (.typeRef (.named t)) (.namedType t)
  | plainType (t : NamedType) : Twins vars (.namedType t) (.typeRef (.named t))
  | rawVariable (h : vars = true) (x : Variable) :
      Twins vars (.value (.variable x)) (.variable x)
  | plainVariable (h : vars = true) (x : Variable) :
      Twins vars (.variable x) (.value (.variable x))

/-- What does not tell the two forms of a node apart. -/
theorem forms_eq {α : Type} (f : Node → α)
    (hvariable : ∀ x, f (.variable x) = f (.value (.variable x)))
    (hnamed : ∀ t, f (.namedType t) = f (.typeRef (.named t))) (n : Node) : f n.plain = f n := by
  rcases n.plain_cases with hplain | ⟨x, rfl⟩ | ⟨t, rfl⟩
  · rw [hplain]
  · exact hvariable x
  · exact hnamed t

theorem twins_plain (n : Node) : n.plain.Twins true n := by
  rcases n.plain_cases with hplain | ⟨x, rfl⟩ | ⟨t, rfl⟩
  · rw [hplain]
    exact .same n
  · exact .plainVariable rfl x
  · exact .plainType t

namespace Twins

variable {vars : Bool} {m n : Node}

theorem symm (h : m.Twins vars n) : n.Twins vars m := by
  cases h with
  | same => exact .same _
  | rawType t => exact .plainType t
  | plainType t => exact .rawType t
  | rawVariable h x => exact .plainVariable h x
  | plainVariable h x => exact .rawVariable h x

theorem trans {k : Node} (h : k.Twins vars m) (h' : m.Twins vars n) :
    k.Twins vars n := by
  cases h with
  | same => exact h'
  | rawType t =>
    cases h' with
    | same => exact .rawType t
    | plainType => exact .same _
  | plainType t =>
    cases h' with
    | same => exact .plainType t
    | rawType => exact .same _
  | rawVariable h x =>
    cases h' with
    | same => exact .rawVariable h x
    | plainVariable => exact .same _
  | plainVariable h x =>
    cases h' with
    | same => exact .plainVariable h x
    | rawVariable => exact .same _

theorem plain_eq (h : m.Twins vars n) : m.plain = n.plain := by
  cases h <;> rfl

/-- Forms differ below a node only where it is a variable, which has a name in one of them. -/
theorem children_eq (h : m.Twins vars n) :
    m.children = n.children ∨ vars = true ∧ ∃ x : Variable,
      (m.children = [] ∧ n.children = Child.single .name (.name x.name) ∨
        m.children = Child.single .name (.name x.name) ∧ n.children = []) ∧
      m.kind = .variable ∧ n.kind = .variable := by
  cases h with
  | same | rawType t | plainType t => exact .inl rfl
  | rawVariable h x => exact .inr ⟨h, x, .inl ⟨rfl, rfl⟩, rfl, rfl⟩
  | plainVariable h x => exact .inr ⟨h, x, .inr ⟨rfl, rfl⟩, rfl, rfl⟩

end Twins

/-- With the forms of variables, twins are the nodes with the same plain form. -/
theorem twins_iff {m n : Node} : m.Twins true n ↔ m.plain = n.plain := by
  refine ⟨Twins.plain_eq, fun h => ?_⟩
  have hm := (twins_plain m).symm
  rw [h] at hm
  exact hm.trans (twins_plain n)

end Node

namespace Refill
open IsNode

/-! ## Readers of entries in any form -/

/-- The same entries, but for their forms. -/
def FormsOf (entries entries' : List (Option Node)) : Prop :=
  entries.map (Option.map Node.plain) = entries'.map (Option.map Node.plain)

variable {α β α' β' : Type}

/-- Two readers give related parts for the same entries in any form, and leave the same
entries. -/
def ReadAlike (R : α → β → Prop) (r : Refill α) (r' : Refill β) : Prop :=
  ∀ entries entries', FormsOf entries entries' →
    OutcomesAlike (fun x y => R x.1 y.1 ∧ FormsOf x.2 y.2) (r entries) (r' entries')

/-- A reader does not tell forms apart. -/
def IgnoresForms (r : Refill α) : Prop := ReadAlike Eq r r

theorem ReadAlike.done {R : α → β → Prop} {a : α} {b : β} (h : R a b) :
    ReadAlike R (pure a) (pure b) :=
  fun _ _ hentries => .ok ⟨h, hentries⟩

theorem ReadAlike.failed (R : α → β → Prop) (e : Error) : ReadAlike R (throw e) (throw e) :=
  fun _ _ _ => .error e

theorem ReadAlike.bind {R : α → β → Prop} {R' : α' → β' → Prop} {r : Refill α} {r' : Refill β}
    {f : α → Refill α'} {g : β → Refill β'} (h : ReadAlike R r r')
    (hfg : ∀ a b, R a b → ReadAlike R' (f a) (g b)) : ReadAlike R' (r >>= f) (r' >>= g) := by
  intro entries entries' hentries
  rw [run_bind, run_bind]
  exact (h entries entries' hentries).bind fun x y hxy => hfg _ _ hxy.1 _ _ hxy.2

theorem IgnoresForms.bind {R : α' → β' → Prop} {r : Refill α} {f : α → Refill α'}
    {g : α → Refill β'} (h : IgnoresForms r) (hfg : ∀ a, ReadAlike R (f a) (g a)) :
    ReadAlike R (r >>= f) (r >>= g) :=
  ReadAlike.bind h fun a _ hab => hab ▸ hfg a

theorem readAlike_next :
    ReadAlike (fun entry entry' => entry.map Node.plain = entry'.map Node.plain) next next := by
  intro entries entries' h
  cases entries with
  | nil =>
    cases entries' with
    | nil => exact .ok ⟨rfl, rfl⟩
    | cons entry' rest' => cases h
  | cons entry rest =>
    cases entries' with
    | nil => cases h
    | cons entry' rest' => exact .ok (List.cons.inj h)

/-- A part that is read from the two forms of a node alike. -/
class Formless (α : Type) [IsNode α] : Prop where
  ofNode?_plain : ∀ n : Node, (ofNode? n.plain : Option α) = ofNode? n

instance : Formless Name := ⟨Node.forms_eq _ (fun _ => rfl) fun _ => rfl⟩
instance : Formless VariableDefinition := ⟨Node.forms_eq _ (fun _ => rfl) fun _ => rfl⟩
instance : Formless SelectionSet := ⟨Node.forms_eq _ (fun _ => rfl) fun _ => rfl⟩
instance : Formless Argument := ⟨Node.forms_eq _ (fun _ => rfl) fun _ => rfl⟩
instance : Formless Directive := ⟨Node.forms_eq _ (fun _ => rfl) fun _ => rfl⟩
instance : Formless ObjectField := ⟨Node.forms_eq _ (fun _ => rfl) fun _ => rfl⟩
instance : Formless Definition := ⟨Node.forms_eq _ (fun _ => rfl) fun _ => rfl⟩
instance : Formless Selection := ⟨Node.forms_eq _ (fun _ => rfl) fun _ => rfl⟩
instance : Formless TypeRef := ⟨Node.forms_eq _ (fun _ => rfl) fun _ => rfl⟩
instance : Formless Value := ⟨Node.forms_eq _ (fun _ => rfl) fun _ => rfl⟩
instance : Formless Variable := ⟨Node.forms_eq _ (fun _ => rfl) fun _ => rfl⟩
instance : Formless NamedType := ⟨Node.forms_eq _ (fun _ => rfl) fun _ => rfl⟩

theorem expect_plain (α : Type) [IsNode α] [Formless α] (n : Node) :
    expect α n.plain = expect α n := by
  rw [expect, expect, Formless.ofNode?_plain, Node.kind_plain]

section Slots
variable (α : Type) [IsNode α] [Formless α]

theorem ignoresForms_expect {n n' : Node} (h : n.plain = n'.plain) :
    ReadAlike Eq (liftM (expect α n) : Refill α) (liftM (expect α n')) := by
  have hread : expect α n = expect α n' := by rw [← expect_plain, h, expect_plain]
  rw [hread]
  intro entries entries' hentries
  cases expect α n' with
  | error e => exact .error e
  | ok a => exact .ok ⟨rfl, hentries⟩

/-- What is read next is either missing in both forms or there in both. -/
theorem readAlike_entry {f g : Option Node → Refill β} (hnone : ReadAlike Eq (f none) (g none))
    (hsome : ∀ n n', n.plain = n'.plain → ReadAlike Eq (f (some n)) (g (some n'))) :
    ReadAlike Eq (next >>= f) (next >>= g) := by
  refine readAlike_next.bind fun entry entry' h => ?_
  cases entry with
  | none =>
    cases entry' with
    | none => exact hnone
    | some n' => cases h
  | some n =>
    cases entry' with
    | none => cases h
    | some n' => exact hsome n n' (Option.some.inj h)

theorem ignoresForms_required (parent : Kind) (slot : Segment) :
    IgnoresForms (required α parent slot) :=
  readAlike_entry (.failed _ _) fun _ _ h => ignoresForms_expect α h

theorem ignoresForms_optional (present : Bool) : IgnoresForms (optional α present) := by
  cases present with
  | false => exact .done rfl
  | true =>
    refine readAlike_entry (.done rfl) fun n n' h => ?_
    exact (ignoresForms_expect α h).bind fun a b hab => .done (hab ▸ rfl)

theorem ignoresForms_list (count : Nat) : IgnoresForms (list α count) := by
  induction count with
  | zero => exact .done rfl
  | succ count ih =>
    refine readAlike_entry ih fun n n' h => ?_
    refine (ignoresForms_expect α h).bind ?_
    rintro a _ rfl
    exact ih.bind fun as => .done rfl

end Slots

theorem ignoresForms_nullable : IgnoresForms nullable := by
  refine (ignoresForms_required TypeRef _ _).bind fun t => ?_
  cases t with
  | nonNull t => exact .failed _ _
  | named t | list t => exact .done rfl

theorem ignoresForms_selections (count : Nat) : IgnoresForms (selections count) := by
  refine (ignoresForms_list Selection count).bind fun ss => ?_
  cases ss with
  | nil => exact .failed _ _
  | cons s ss => exact .done rfl

theorem ignoresForms_typeRef (t : TypeRef) : IgnoresForms (typeRef t) := by
  cases t with
  | named t => exact (ignoresForms_required Name _ _).bind fun _ => .done rfl
  | list t => exact (ignoresForms_required TypeRef _ _).bind fun _ => .done rfl
  | nonNull t => exact ignoresForms_nullable.bind fun _ => .done rfl

theorem ignoresForms_value (v : Value) : IgnoresForms (value v) := by
  cases v with
  | list vs => exact (ignoresForms_list Value _).bind fun _ => .done rfl
  | object fs => exact (ignoresForms_list ObjectField _).bind fun _ => .done rfl
  | _ => exact .done rfl

/-- A node is rebuilt around entries in any form alike. -/
theorem ignoresForms_node (n : Node) : IgnoresForms (node n) := by
  match n with
  | .document d => exact (ignoresForms_list Definition _).bind fun _ => .done rfl
  | .operationDefinition o =>
    exact (ignoresForms_optional Name _).bind fun _ =>
      (ignoresForms_list VariableDefinition _).bind fun _ =>
      (ignoresForms_list Directive _).bind fun _ =>
      (ignoresForms_required SelectionSet _ _).bind fun _ => .done rfl
  | .fragmentDefinition f =>
    exact (ignoresForms_required Name _ _).bind fun _ =>
      (ignoresForms_required NamedType _ _).bind fun _ =>
      (ignoresForms_list Directive _).bind fun _ =>
      (ignoresForms_required SelectionSet _ _).bind fun _ => .done rfl
  | .variableDefinition v =>
    exact (ignoresForms_required Variable _ _).bind fun _ =>
      (ignoresForms_required TypeRef _ _).bind fun _ =>
      (ignoresForms_optional Value _).bind fun _ =>
      (ignoresForms_list Directive _).bind fun _ => .done rfl
  | .selectionSet s => exact (ignoresForms_selections _).bind fun _ => .done rfl
  | .field f =>
    exact (ignoresForms_optional Name _).bind fun _ =>
      (ignoresForms_required Name _ _).bind fun _ =>
      (ignoresForms_list Argument _).bind fun _ =>
      (ignoresForms_list Directive _).bind fun _ =>
      (ignoresForms_optional SelectionSet _).bind fun _ => .done rfl
  | .fragmentSpread s =>
    exact (ignoresForms_required Name _ _).bind fun _ =>
      (ignoresForms_list Directive _).bind fun _ => .done rfl
  | .inlineFragment f =>
    exact (ignoresForms_optional NamedType _).bind fun _ =>
      (ignoresForms_list Directive _).bind fun _ =>
      (ignoresForms_required SelectionSet _ _).bind fun _ => .done rfl
  | .argument a =>
    exact (ignoresForms_required Name _ _).bind fun _ =>
      (ignoresForms_required Value _ _).bind fun _ => .done rfl
  | .directive d =>
    exact (ignoresForms_required Name _ _).bind fun _ =>
      (ignoresForms_list Argument _).bind fun _ => .done rfl
  | .variable v => exact (ignoresForms_required Name _ _).bind fun _ => .done rfl
  | .namedType t => exact (ignoresForms_required Name _ _).bind fun _ => .done rfl
  | .typeRef t => exact (ignoresForms_typeRef t).bind fun _ => .done rfl
  | .value v => exact (ignoresForms_value v).bind fun _ => .done rfl
  | .objectField f =>
    exact (ignoresForms_required Name _ _).bind fun _ =>
      (ignoresForms_required Value _ _).bind fun _ => .done rfl
  | .name x => exact .done rfl

end Refill

namespace Node
open Refill

theorem node_named (t : NamedType) :
    Refill.node (.typeRef (.named t)) =
      required Name .namedType .name >>= fun x => pure (.typeRef (.named ⟨x⟩)) := by
  simp only [Refill.node, Refill.typeRef, bind_assoc, pure_bind]

/-- Two forms of a node with the same children are rebuilt alike. -/
theorem refill_twins {vars : Bool} {m n : Node} (h : m.Twins vars n)
    (hchildren : m.children = n.children) {entries entries' : List (Option Node)}
    (hentries : FormsOf entries entries') :
    OutcomesAlike (Twins vars) (m.refill entries) (n.refill entries') := by
  have hread : ReadAlike (Twins vars) (Refill.node m) (Refill.node n) := by
    cases h with
    | same =>
      intro entries entries' hentries
      exact (ignoresForms_node m entries entries' hentries).imp
        fun x y hxy => ⟨hxy.1 ▸ .same _, hxy.2⟩
    | rawType t =>
      rw [node_named]
      exact (ignoresForms_required Name _ _).bind fun x => .done (.rawType ⟨x⟩)
    | plainType t =>
      rw [node_named]
      exact (ignoresForms_required Name _ _).bind fun x => .done (.plainType ⟨x⟩)
    | rawVariable h x => cases hchildren
    | plainVariable h x => cases hchildren
  exact (hread entries entries' hentries).bind fun x y hxy => .ok hxy.1

end Node
end QueryDoc
