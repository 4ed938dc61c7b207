import QueryDoc.Proofs.Tree.Refill
import QueryDoc.Proofs.Visit.Nesting
import QueryDoc.Proofs.Visit.Upkeep

/-! Edits and the shapes that no tree may have: selection sets without selections and types
that exclude null twice. A node is checked for both where it is rebuilt, so no walk makes
such a shape, whatever it deletes or puts in the place of other nodes and wherever it stops.
Beside the walk stands one without the checks; whenever that makes such a shape, the walk ends
with the error for it. -/
namespace QueryDoc

variable {γ σ : Type}

/-! ## Legal shapes -/

namespace Node

/-- A selection set has selections, and no type excludes null twice. -/
def Legal : Node → Prop
  | .selectionSet s => s.selections ≠ []
  | .typeRef (.nonNull inner) => ∀ t, inner ≠ .nonNull t
  | _ => True

theorem permits_legal : Permits Legal where
  ofName _ := trivial
  ofVariable _ := trivial
  ofNamedType _ := trivial

variable {n m : Node} {entries : List (Option Node)}

theorem legal_refill (h : n.refill entries = .ok m) : m.Legal := by
  have hshape := shape_refill h
  obtain ⟨rest, h⟩ := Refill.refill_iff_takes.mp h
  match n with
  | .selectionSet s =>
    obtain ⟨ss, _, hss, h⟩ := Refill.takes_bind.mp h
    obtain ⟨rfl, -⟩ := Refill.takes_return.mp h
    exact (Refill.takes_selections.mp hss).2
  | .typeRef (.nonNull t) =>
    obtain ⟨u, _, hu, h⟩ := Refill.takes_bind.mp h
    obtain ⟨rfl, -⟩ := Refill.takes_return.mp h
    obtain ⟨inner, _, hinner, h⟩ := Refill.takes_bind.mp hu
    obtain ⟨rfl, -⟩ := Refill.takes_return.mp h
    exact (Refill.takes_nullable.mp hinner).2
  | .typeRef (.named _) | .typeRef (.list _) =>
    obtain ⟨u, _, hu, h⟩ := Refill.takes_bind.mp h
    obtain ⟨rfl, -⟩ := Refill.takes_return.mp h
    obtain ⟨a, _, -, h⟩ := Refill.takes_bind.mp hu
    obtain ⟨rfl, -⟩ := Refill.takes_return.mp h
    trivial
  | .document _ | .operationDefinition _ | .fragmentDefinition _ | .variableDefinition _
  | .field _ | .fragmentSpread _ | .inlineFragment _ | .argument _ | .directive _
  | .variable _ | .name _ | .namedType _ | .value _ | .objectField _ =>
    cases m <;> trivial

/-! ## Rebuilding without checks -/

/-- Rebuilds a node around new entries for its children, with no look at its shape. -/
def assemble (n : Node) (entries : List (Option Node)) : Except Error Node :=
  match n with
  | .selectionSet s => do
    let ss ← (Refill.list Selection s.selections.length).run' entries
    return .selectionSet ⟨ss⟩
  | .typeRef (.nonNull _) => do
    let t ← (Refill.required TypeRef .nonNullType .typeRef).run' entries
    return .typeRef (.nonNull t)
  | n => n.refill entries

/-- A look at the shape of a rebuilt node. -/
def checked : Node → Except Error Node
  | .selectionSet ⟨[]⟩ => .error .emptiedSelectionSet
  | .typeRef (.nonNull (.nonNull _)) => .error .doubledNonNull
  | m => .ok m

theorem checked_of_legal (h : m.Legal) : m.checked = .ok m := by
  unfold checked
  split
  · exact absurd rfl h
  · exact absurd rfl (h _)
  · rfl

/-- Rebuilding is rebuilding without checks and then a look at the shape. -/
theorem refill_eq (n : Node) (entries : List (Option Node)) :
    n.refill entries = (n.assemble entries).bind checked := by
  have hsame : n.assemble entries = n.refill entries →
      n.refill entries = (n.assemble entries).bind checked := by
    intro h
    rw [h]
    cases hrefill : n.refill entries with
    | error e => rfl
    | ok m => exact (checked_of_legal (legal_refill hrefill)).symm
  match n with
  | .selectionSet s =>
    simp only [assemble, refill, Refill.node, Refill.selections, StateT.run', bind, StateT.bind]
    cases Refill.list Selection s.selections.length entries with
    | error e => rfl
    | ok read =>
      obtain ⟨ss, rest⟩ := read
      cases ss <;> rfl
  | .typeRef (.nonNull _) =>
    simp only [assemble, refill, Refill.node, Refill.typeRef, Refill.nullable, StateT.run', bind,
      StateT.bind]
    cases Refill.required TypeRef .nonNullType .typeRef entries with
    | error e => rfl
    | ok read =>
      obtain ⟨t, rest⟩ := read
      cases t <;> rfl
  | .typeRef (.named _) | .typeRef (.list _) | .document _ | .operationDefinition _
  | .fragmentDefinition _ | .variableDefinition _ | .field _ | .fragmentSpread _
  | .inlineFragment _ | .argument _ | .directive _ | .variable _ | .name _ | .namedType _
  | .value _ | .objectField _ => exact hsame rfl

end Node

/-! ## A walk without checks -/

section Unchecked
variable (rebuild : Node → List (Option Node) → Except Error Node)

/-- The node after its children were walked, by a way to rebuild it. -/
def closeBy (n : Node) (changed edited : Bool) (entries : List (Option Node)) :
    Except Error Fate :=
  if edited then do return .changed (← rebuild n entries)
  else .ok (if changed then .changed n else .kept)

/-- The answer for a node from what became of its children. -/
def Passage.concludeBy (v : Visitor γ σ) (held n : Node) (changed : Bool) (position : Position)
    (p : Passage γ σ) : Answer γ σ :=
  match p.entries with
  | .error e => ⟨.error e, p.stopDepth, p.context, p.state⟩
  | .ok entries =>
    match closeBy rebuild n changed p.edited entries with
    | .error e => ⟨.error e, p.stopDepth, p.context, p.state⟩
    | .ok fate =>
      match p.stopDepth with
      | some d => ⟨.ok fate, some d, p.context, p.state⟩
      | none => leaveNode v held n fate position p.context p.state

/-- The walk of a node with a way to rebuild nodes. -/
def walkBy (v : Visitor γ σ) : Nat → Node → Position → γ → σ → Option (Answer γ σ)
  | 0, _, _, _, _ => none
  | depth + 1, n, position, context, state =>
    let reply := v.enter n position context state
    match reply.signal with
    | .error e => some ⟨.error e, none, reply.context, reply.state⟩
    | .ok signal =>
      match signal.opening n with
      | .deleted => some ⟨.ok .deleted, none, reply.context, reply.state⟩
      | .stopped =>
        some ⟨.ok .kept, some position.ancestors.length, reply.context, reply.state⟩
      | .descend m changed children =>
        (walkChildren (walkBy v depth) m position children reply.context reply.state).map
          (·.concludeBy rebuild v n m changed position)

end Unchecked

/-- A walk rebuilds nodes with checks. -/
theorem walkBy_refill (v : Visitor γ σ) (depth : Nat) :
    walkBy Node.refill v depth = walk v depth := by
  induction depth with
  | zero => rfl
  | succ depth ih =>
    funext n position c s
    simp only [walkBy, walk, ih, walkBelow_eq]
    rfl

/-- The error for one of the two shapes. -/
def Error.IsFault (e : Error) : Prop := e = .emptiedSelectionSet ∨ e = .doubledNonNull

def Refused {α : Type} (outcome : Except Error α) : Prop :=
  ∃ e, e.IsFault ∧ outcome = .error e

theorem Node.checked_or_refused (m : Node) : m.checked = .ok m ∨ Refused m.checked := by
  unfold checked
  split
  · exact .inr ⟨_, .inl rfl, rfl⟩
  · exact .inr ⟨_, .inr rfl, rfl⟩
  · exact .inl rfl

theorem closeBy_or_refused (n : Node) (changed edited : Bool) (entries : List (Option Node)) :
    closeBy Node.refill n changed edited entries = closeBy Node.assemble n changed edited entries ∨
      Refused (closeBy Node.refill n changed edited entries) := by
  cases edited with
  | false => exact .inl rfl
  | true =>
    simp only [closeBy, if_true, Node.refill_eq]
    cases n.assemble entries with
    | error e => exact .inl rfl
    | ok m =>
      simp only [Except.bind]
      rcases m.checked_or_refused with h | ⟨e, he, h⟩
      · rw [h]
        exact .inl rfl
      · rw [h]
        exact .inr ⟨e, he, rfl⟩

/-- The walks with checks and without have the same answer, or a check failed. -/
def SameOrRefused (v : Visitor γ σ) (depth : Nat) : Prop :=
  ∀ n position c s a, walkBy Node.assemble v depth n position c s = some a →
    ∃ b, walkBy Node.refill v depth n position c s = some b ∧ (b = a ∨ Refused b.outcome)

variable {v : Visitor γ σ} {depth : Nat}

/-- A check that fails below a child fails for its parent, without a walk of the others. -/
theorem walkChildren_sameOrRefused (hw : SameOrRefused v depth) (parent : Node)
    (position : Position) :
    ∀ (children : List Child) (c : γ) (s : σ) (p : Passage γ σ),
      walkChildren (walkBy Node.assemble v depth) parent position children c s = some p →
      ∃ q, walkChildren (walkBy Node.refill v depth) parent position children c s = some q ∧
        (q = p ∨ Refused q.entries) := by
  intro children
  induction children with
  | nil =>
    intro c s p h
    exact ⟨p, h, .inl rfl⟩
  | cons child children ih =>
    intro c s p h
    -- With a failed check the walk is over, whatever the other one goes on to.
    have hover : ∀ first,
        walkBy Node.refill v depth child.node (position.child parent child.key) c s = some first →
        Refused first.outcome →
        ∃ q, walkChildren (walkBy Node.refill v depth) parent position (child :: children) c s =
            some q ∧ (q = p ∨ Refused q.entries) := by
      rintro first hfirst ⟨e, he, hrefused⟩
      exact ⟨_, walkChildren_error parent position hfirst hrefused children, .inr ⟨e, he, rfl⟩⟩
    cases walkChildren_proceeds h with
    | error hfirst houtcome =>
      obtain ⟨first, hfirst', rfl | hrefused⟩ := hw _ _ _ _ _ hfirst
      · exact ⟨_, walkChildren_error parent position hfirst' houtcome children, .inl rfl⟩
      · exact hover first hfirst' hrefused
    | stop hfirst houtcome hstop =>
      obtain ⟨first, hfirst', rfl | hrefused⟩ := hw _ _ _ _ _ hfirst
      · exact ⟨_, walkChildren_stop parent position hfirst' houtcome hstop children, .inl rfl⟩
      · exact hover first hfirst' hrefused
    | next hfirst houtcome hstop hothers =>
      obtain ⟨first, hfirst', rfl | hrefused⟩ := hw _ _ _ _ _ hfirst
      · obtain ⟨others, hothers', hsame⟩ := ih _ _ _ hothers
        rw [walkChildren_next parent position hfirst' houtcome hstop, hothers']
        refine ⟨_, rfl, ?_⟩
        rcases hsame with rfl | ⟨e, he, hrefused⟩
        · exact .inl rfl
        · exact .inr ⟨e, he, by simp only [Passage.after, hrefused, Except.map]⟩
      · exact hover first hfirst' hrefused

/-- A node with a failed check below it is not left, and neither is one that fails it. -/
theorem conclude_sameOrRefused (held n : Node) (changed : Bool) (position : Position)
    {p q : Passage γ σ} (h : q = p ∨ Refused q.entries) :
    q.concludeBy Node.refill v held n changed position =
        p.concludeBy Node.assemble v held n changed position ∨
      Refused (q.concludeBy Node.refill v held n changed position).outcome := by
  rcases h with rfl | ⟨e, he, h⟩
  · obtain ⟨entries, edited, stopDepth, c, s⟩ := q
    cases entries with
    | error e => exact .inl rfl
    | ok entries =>
      simp only [Passage.concludeBy]
      rcases closeBy_or_refused n changed edited entries with h | ⟨e, he, h⟩
      · rw [h]
        exact .inl rfl
      · rw [h]
        exact .inr ⟨e, he, rfl⟩
  · simp only [Passage.concludeBy, h]
    exact .inr ⟨e, he, rfl⟩

theorem sameOrRefused (v : Visitor γ σ) (depth : Nat) : SameOrRefused v depth := by
  induction depth with
  | zero =>
    intro n position c s a h
    cases h
  | succ depth ih =>
    intro n position c s a h
    rw [walkBy] at h ⊢
    cases hsignal : (v.enter n position c s).signal with
    | error e =>
      simp only [hsignal] at h ⊢
      exact ⟨a, h, .inl rfl⟩
    | ok signal =>
      simp only [hsignal] at h ⊢
      cases hopening : signal.opening n with
      | deleted | stopped =>
        simp only [hopening] at h ⊢
        exact ⟨a, h, .inl rfl⟩
      | descend m changed children =>
        simp only [hopening] at h ⊢
        obtain ⟨p, hp, rfl⟩ := Option.map_eq_some_iff.mp h
        obtain ⟨q, hq, hsame⟩ := walkChildren_sameOrRefused ih _ _ _ _ _ p hp
        rw [hq]
        exact ⟨_, rfl, conclude_sameOrRefused n m changed position hsame⟩

/-! ## Edits -/

namespace Visitor

/-- All that the visitor puts in the place of other nodes in a walk of a tree. -/
def PutsOnly (P : Node → Prop) (v : Visitor γ σ) (root : Node) (c : γ) (s : σ) : Prop :=
  ∀ a log, v.EndsWith root c s a log → ∀ ev ∈ log, ∀ r, ev.Puts r → P r

theorem putsOnly_of_forall {P : Node → Prop}
    (henter : ∀ n position c s e r,
      (v.enter n position c s).signal = .ok (.edit e) → e.Puts r → P r)
    (hleave : ∀ n position c s e r,
      (v.leave n position c s).signal = .ok (.edit e) → e.Puts r → P r)
    (root : Node) (c : γ) (s : σ) : v.PutsOnly P root c s :=
  fun _ _ h => h.forall_log
    (fun n position c s r ⟨e, hsignal, he⟩ => henter n position c s e r hsignal he)
    fun n position c s r ⟨e, hsignal, he⟩ => hleave n position c s e r hsignal he

/-- What a walk ends with that rebuilds nodes without checks. -/
def EndsUnchecked (v : Visitor γ σ) (root : Node) (c : γ) (s : σ) (a : Answer γ σ) : Prop :=
  ∃ depth, walkBy Node.assemble v depth root .root c s = some a

end Visitor

open Node in
theorem keeps_legal (v : Visitor γ σ) {log : List Event}
    (hputs : ∀ ev ∈ log, ∀ r, ev.Puts r → r.Throughout Legal) :
    Keeps v.logged (fun s => ∀ ev ∈ s.2, ev ∈ log) (fun _ n => n.Throughout Legal)
      (fun _ n => n.Throughout Legal) fun _ => True where
  enter := Hook.obeys_logged hputs fun _ _ _ => trivial
  leave := Hook.obeys_logged hputs fun _ _ _ => trivial
  child := Throughout.child
  kept h := h
  refilled := by
    intro position n m entries _ hsettled hrefill
    refine throughout_refill permits_legal hrefill (legal_refill hrefill) fun k hk => ?_
    obtain ⟨c, -, hleft⟩ := left_of_mem hsettled hk
    exact hleft

/-- Where the root and all that a visitor puts in the place of other nodes have selections in
every selection set and no type that excludes null twice, so has what a walk leaves. Where a
walk without checks would leave something else, the walk ends with an error for it. -/
theorem edits_legal {root : Node} {c : γ} {s : σ} (hroot : root.Throughout Node.Legal)
    (hputs : v.PutsOnly (·.Throughout Node.Legal) root c s) :
    (∀ a fate n, v.Ends root c s a → a.outcome = .ok fate → fate.node? root = some n →
      n.Throughout Node.Legal) ∧
    (∀ a fate n, v.EndsUnchecked root c s a → a.outcome = .ok fate → fate.node? root = some n →
      ¬ n.Throughout Node.Legal →
      ∃ b, v.Ends root c s b ∧
        (b.outcome = .error .emptiedSelectionSet ∨ b.outcome = .error .doubledNonNull)) := by
  have hlegal : ∀ a fate n, v.Ends root c s a → a.outcome = .ok fate →
      fate.node? root = some n → n.Throughout Node.Legal := by
    intro a fate n ha houtcome hn
    obtain ⟨log, hlog⟩ := Visitor.ends_iff_endsWith.mp ha
    exact (keeps_legal v (hputs a log hlog)).ends hroot hlog (fun _ hev => hev) houtcome hn
  refine ⟨hlegal, ?_⟩
  rintro a fate n ⟨depth, ha⟩ houtcome hn hillegal
  obtain ⟨b, hb, hsame⟩ := sameOrRefused v depth root .root c s a ha
  rw [walkBy_refill] at hb
  have hends : v.Ends root c s b := Visitor.ends_iff.mpr ⟨depth, hb⟩
  rcases hsame with rfl | ⟨e, rfl | rfl, hrefused⟩
  · exact absurd (hlegal b fate n hends houtcome hn) hillegal
  · exact ⟨b, hends, .inl hrefused⟩
  · exact ⟨b, hends, .inr hrefused⟩

/-- A field without anything but its name. -/
def leafField (label : String) : Field := ⟨none, ⟨label⟩, [], [], none⟩

def fieldSet (labels : List String) : Node :=
  .selectionSet ⟨labels.map fun label => .field (leafField label)⟩

theorem throughout_fieldSet {labels : List String} (h : labels ≠ []) :
    (fieldSet labels).Throughout Node.Legal := by
  rw [fieldSet, Node.throughout_iff]
  refine ⟨fun hempty => h (List.map_eq_nil_iff.mp hempty), Child.forall_members.mpr ?_⟩
  intro selection hselection
  obtain ⟨label, -, rfl⟩ := List.mem_map.mp hselection
  refine Node.throughout_iff.mpr ⟨trivial, fun c hc => ?_⟩
  rw [List.mem_singleton.mp hc]
  exact Node.throughout_iff.mpr ⟨trivial, nofun⟩

/-- Deletes the field `a`. -/
def dropA : Visitor Unit Unit := .entering (.only (.edit .delete) (.field (leafField "a")))

theorem edits_legal_dropA :
    (∃ a, dropA.Ends (fieldSet ["a", "b"]) () () a ∧
      a.outcome = .ok (.changed (fieldSet ["b"])) ∧
      (fieldSet ["b"]).Throughout Node.Legal) ∧
    ∃ b, dropA.Ends (fieldSet ["a"]) () () b ∧
      (b.outcome = .error .emptiedSelectionSet ∨ b.outcome = .error .doubledNonNull) := by
  have hputs : ∀ root, dropA.PutsOnly (·.Throughout Node.Legal) root () () := by
    intro root
    apply Visitor.putsOnly_of_forall
    · intro n position c s e r h he
      simp only [dropA, Visitor.entering, Signal.only] at h
      split at h
      · cases h
        rcases he with he | he <;> cases he
      · cases h
    · intro n position c s e r h
      cases h
  constructor
  · have hrun : (visit 20 dropA (fieldSet ["a", "b"]) () ()).map (·.outcome) =
        some (.ok (.changed (fieldSet ["b"]))) := by
      decide +kernel
    obtain ⟨a, ha, houtcome⟩ := Option.map_eq_some_iff.mp hrun
    have hlegal := (edits_legal (throughout_fieldSet (by decide)) (hputs _)).1 a _ _ ⟨20, ha⟩
      houtcome rfl
    exact ⟨a, ⟨20, ha⟩, houtcome, hlegal⟩
  · have hrun : (walkBy Node.assemble dropA 3 (fieldSet ["a"]) .root () ()).map (·.outcome) =
        some (.ok (.changed (fieldSet []))) := by
      decide +kernel
    obtain ⟨a, ha, houtcome⟩ := Option.map_eq_some_iff.mp hrun
    exact (edits_legal (throughout_fieldSet (by decide)) (hputs _)).2 a _ _ ⟨3, ha⟩ houtcome rfl
      fun h => h.here rfl

end QueryDoc
