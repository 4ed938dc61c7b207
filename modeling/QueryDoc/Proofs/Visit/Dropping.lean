import QueryDoc.Proofs.Print.RoundTrip
import QueryDoc.Proofs.Tree.Without
import QueryDoc.Proofs.Visit.Ends

/-! Deleting fields. A visitor that deletes the fields of which a test is true, and wants nothing
else, leaves just the document without them. It fails where all selections of a set would be
gone that it comes to, and on what it left it finds nothing more to do. -/
namespace QueryDoc

variable {γ σ : Type} {p : FieldTest}

/-- A visitor that deletes certain fields on entering them and otherwise always goes on. -/
structure Visitor.Drops (p : FieldTest) (v : Visitor γ σ) : Prop where
  enter : ∀ n position c s, (v.enter n position c s).signal =
    .ok (if n.drops p then .edit .delete else .next)
  leave : ∀ n position c s, (v.leave n position c s).signal = .ok .next

namespace Node

/-! ## Selection sets that lose everything -/

/-- A selection set all of whose selections are left out. -/
structure Emptied (p : FieldTest) (n : Node) : Prop where
  shape : n.shape = .selectionSet
  nonempty : n.children ≠ []
  drops : ∀ c ∈ n.children, c.node.drops p = true

theorem Emptied.touched {n : Node} (h : n.Emptied p) :
    ¬ ∀ c ∈ n.children, c.node.Untouched p := by
  intro huntouched
  obtain ⟨c, hc⟩ := List.exists_mem_of_ne_nil _ h.nonempty
  cases (h.drops c hc).symm.trans (huntouched c hc).1

/-- Something is left out in a way that cannot be. -/
def Stuck (p : FieldTest) (n : Node) : Prop := ∃ m, Reached p m n ∧ m.Emptied p

theorem stuck_iff {n : Node} :
    n.Stuck p ↔ n.Emptied p ∨ ∃ c ∈ n.children, c.node.drops p = false ∧ c.node.Stuck p := by
  constructor
  · rintro ⟨m, hm, hemptied⟩
    cases hm with
    | here => exact .inl hemptied
    | deeper hc hdrops hm => exact .inr ⟨_, hc, hdrops, m, hm, hemptied⟩
  · rintro (hemptied | ⟨c, hc, hdrops, m, hm, hemptied⟩)
    · exact ⟨n, .here n, hemptied⟩
    · exact ⟨m, .deeper hc hdrops hm, hemptied⟩

/-- Where fields were left out already, no selection set loses all selections. -/
theorem not_stuck_without (n : Node) : ¬ (n.without p).Stuck p := by
  induction n using of_children with
  | h n ih =>
    rw [stuck_iff]
    rintro (⟨-, hnonempty, hdrops⟩ | ⟨c, hc, -, hstuck⟩)
    · obtain ⟨c, hc⟩ := List.exists_mem_of_ne_nil _ hnonempty
      obtain ⟨d, -, hkept, hcd⟩ := child_of_without hc
      have hgone := hdrops c hc
      rw [hcd, drops_without, hkept] at hgone
      cases hgone
    · obtain ⟨d, hd, -, hcd⟩ := child_of_without hc
      rw [hcd] at hstuck
      exact ih d hd hstuck

/-! ## What becomes of a node -/

/-- What becomes of a node where fields are deleted. -/
def fate (p : FieldTest) (n : Node) : Fate :=
  if n.drops p then .deleted else if n.without p = n then .kept else .changed (n.without p)

theorem node?_fate (n : Node) :
    (n.fate p).node? n = if n.drops p then none else some (n.without p) := by
  unfold fate
  by_cases hdrops : n.drops p = true
  · rw [if_pos hdrops, if_pos hdrops]
    rfl
  · rw [if_neg hdrops, if_neg hdrops]
    by_cases hsame : n.without p = n
    · rw [if_pos hsame, hsame]
      rfl
    · rw [if_neg hsame]
      rfl

theorem fate_eq_kept_iff {n : Node} : n.fate p = .kept ↔ n.Untouched p := by
  unfold fate Untouched
  by_cases hdrops : n.drops p = true
  · simp [hdrops]
  · by_cases hsame : n.without p = n
    · simp [hdrops, hsame]
    · simp [hdrops, hsame]

theorem isEdit_fate {n : Node} : (n.fate p).isEdit = false ↔ n.Untouched p := by
  rw [← fate_eq_kept_iff]
  cases n.fate p with
  | kept => exact ⟨fun _ => rfl, fun _ => rfl⟩
  | changed _ | deleted => exact ⟨nofun, nofun⟩

/-- What a walk that deletes fields comes to at a node. -/
inductive Comes (p : FieldTest) (n : Node) : Except Error Fate → Prop where
  | stuck : n.drops p = false → n.Stuck p → Comes p n (.error .emptiedSelectionSet)
  | fine : (n.drops p = false → ¬ n.Stuck p) → Comes p n (.ok (n.fate p))

end Node

/-! ## Walks -/

section Walks
variable {v : Visitor γ σ}
open Node

/-- What the walks of children come to: the first of them that fails, or the entries without
the fields that are left out. -/
inductive Passage.Comes (p : FieldTest) (cs : List Child) (q : Passage γ σ) : Prop where
  | stuck : (∃ c ∈ cs, c.node.drops p = false ∧ c.node.Stuck p) →
      q.entries = .error .emptiedSelectionSet → Comes p cs q
  | fine : (∀ c ∈ cs, c.node.drops p = false → ¬ c.node.Stuck p) →
      q.entries = .ok (left p cs) → (q.edited = false ↔ ∀ c ∈ cs, c.node.Untouched p) →
      Comes p cs q

theorem passes_drops (parent : Node) (position : Position) (cs : List Child)
    (h : ∀ child ∈ cs, ∀ position c s, ∃ a, v.Gives child.node position c s a ∧
      a.stopDepth = none ∧ child.node.Comes p a.outcome) (c : γ) (s : σ) :
    ∃ q, v.Passes parent position cs c s q ∧ q.stopDepth = none ∧ q.Comes p cs := by
  induction cs generalizing c s with
  | nil =>
    have hnone : ∀ c ∈ ([] : List Child), c.node.Untouched p := List.forall_mem_nil _
    exact ⟨_, .nil, rfl, .fine (List.forall_mem_nil _) rfl ⟨fun _ => hnone, fun _ => rfl⟩⟩
  | cons child cs ih =>
    obtain ⟨first, hfirst, hstop, hcomes⟩ := h child List.mem_cons_self
      (position.child parent child.key) c s
    generalize houtcome : first.outcome = outcome at hcomes
    cases hcomes with
    | stuck hdrops hstuck =>
      exact ⟨_, .error hfirst houtcome, hstop,
        .stuck ⟨child, List.mem_cons_self, hdrops, hstuck⟩ rfl⟩
    | fine hfine =>
      obtain ⟨q, hq, hqstop, hqcomes⟩ := ih (fun other hother =>
        h other (List.mem_cons_of_mem _ hother)) first.context first.state
      refine ⟨_, .cons hfirst houtcome hstop hq, hqstop, ?_⟩
      cases hqcomes with
      | stuck hstuck hentries =>
        obtain ⟨d, hd, hdrops, hstuck⟩ := hstuck
        refine .stuck ⟨d, List.mem_cons_of_mem _ hd, hdrops, hstuck⟩ ?_
        simp only [Passage.after, hentries]
        rfl
      | fine hall hentries hedited =>
        refine .fine (List.forall_mem_cons.mpr ⟨hfine, hall⟩) ?_ ?_
        · simp only [Passage.after, hentries, node?_fate]
          rfl
        · rw [List.forall_mem_cons, ← hedited, ← isEdit_fate, ← Bool.or_eq_false_iff]
          rfl

theorem leaveNode_drops (hv : v.Drops p) (held n : Node) (fate : Fate) (position : Position)
    (c : γ) (s : σ) : (leaveNode v held n fate position c s).stopDepth = none ∧
      (leaveNode v held n fate position c s).outcome = .ok fate := by
  rw [leaveNode_ok rfl (hv.leave _ position c s)]
  exact ⟨rfl, rfl⟩

/-- Nothing is left out below a non-null type. -/
theorem untouched_nonNull {n : Node} (h : n.kind = .nonNullType) :
    ∀ c ∈ n.children, c.node.Untouched p := by
  obtain ⟨t, rfl⟩ := eq_nonNull h
  exact Child.forall_single.mpr (untouched_typeRef t)

theorem closeNode_emptied {n : Node} (h : n.Emptied p) :
    closeNode n false true (left p n.children) = .error .emptiedSelectionSet := by
  cases n with
  | selectionSet set =>
    rw [closeNode, if_pos rfl, refill_emptied h.drops]
    rfl
  | _ => cases h.shape

/-- Where something is left out below a node, but not all selections of a set, the node is
rebuilt without it. -/
theorem closeNode_left {n : Node} (htouched : ¬ ∀ c ∈ n.children, c.node.Untouched p)
    (hemptied : ¬ n.Emptied p) :
    closeNode n false true (left p n.children) = .ok (.changed (n.without p)) := by
  have hnonempty : n.children ≠ [] := by
    intro hnil
    rw [hnil] at htouched
    exact htouched (List.forall_mem_nil _)
  have hset : n.shape = .selectionSet → ∃ c ∈ n.children, c.node.drops p = false := by
    intro hshape
    by_contra hnone
    refine hemptied ⟨hshape, hnonempty, fun c hc => ?_⟩
    cases hdrops : c.node.drops p with
    | true => rfl
    | false => exact absurd ⟨c, hc, hdrops⟩ hnone
  rw [closeNode, if_pos rfl, refill_left (fun hkind => htouched (untouched_nonNull hkind)) hset]
  rfl

/-- A node comes to what its children come to. -/
theorem conclude_drops (hv : v.Drops p) {n : Node} (hn : n.drops p = false) (position : Position)
    {q : Passage γ σ} (hstop : q.stopDepth = none) (hq : q.Comes p n.children) :
    (q.conclude v n n false position).stopDepth = none ∧
      n.Comes p (q.conclude v n n false position).outcome := by
  cases hq with
  | stuck hstuck hentries =>
    rw [Passage.conclude_error hentries]
    exact ⟨hstop, .stuck hn (stuck_iff.mpr (.inr hstuck))⟩
  | fine hall hentries hedited =>
    by_cases hemptied : n.Emptied p
    · have htouched := hemptied.touched
      rw [← hedited, Bool.not_eq_false] at htouched
      have hclose := closeNode_emptied hemptied
      rw [← htouched] at hclose
      rw [Passage.conclude_refused hentries hclose]
      exact ⟨hstop, .stuck hn (stuck_iff.mpr (.inl hemptied))⟩
    have hfine : n.drops p = false → ¬ n.Stuck p := by
      intro _ hstuck
      rcases stuck_iff.mp hstuck with h | ⟨c, hc, hdrops, h⟩
      · exact hemptied h
      · exact hall c hc hdrops h
    have hclose : closeNode n false q.edited (left p n.children) = .ok (n.fate p) := by
      cases hedit : q.edited with
      | false =>
        have hsame := without_eq_self_iff.mpr (hedited.mp hedit)
        rw [fate, hn, if_neg Bool.false_ne_true, if_pos hsame]
        rfl
      | true =>
        have htouched : ¬ ∀ c ∈ n.children, c.node.Untouched p := by
          rw [← hedited, hedit]
          exact nofun
        rw [closeNode_left htouched hemptied, fate, hn, if_neg Bool.false_ne_true,
          if_neg (mt without_eq_self_iff.mp htouched)]
    obtain ⟨hleave, houtcome⟩ := leaveNode_drops hv n n (n.fate p) position q.context q.state
    rw [Passage.conclude_leave hentries hclose hstop]
    refine ⟨hleave, ?_⟩
    rw [houtcome]
    exact .fine hfine

theorem gives_drops (hv : v.Drops p) (n : Node) :
    ∀ position c s, ∃ a, v.Gives n position c s a ∧ a.stopDepth = none ∧ n.Comes p a.outcome := by
  induction n using Node.of_children with
  | h n ih =>
    intro position c s
    have hsignal := hv.enter n position c s
    cases hn : n.drops p with
    | true =>
      rw [hn, if_pos rfl] at hsignal
      have hcomes : n.Comes p (.ok (n.fate p)) := .fine fun h => absurd (hn.symm.trans h) nofun
      rw [fate, if_pos hn] at hcomes
      exact ⟨_, .deleted rfl hsignal, rfl, hcomes⟩
    | false =>
      rw [hn, if_neg Bool.false_ne_true] at hsignal
      obtain ⟨q, hq, hstop, hcomes⟩ := passes_drops n position n.children ih
        (v.enter n position c s).context (v.enter n position c s).state
      exact ⟨_, .descend rfl hsignal rfl hq, conclude_drops hv hn position hstop hcomes⟩

end Walks

/-! ## Documents -/

namespace Node

/-- In a tree without empty selection sets one loses everything if all its selections are
left out. -/
theorem stuck_iff_of_lawful {n : Node} (h : n.Throughout Lawful) :
    n.Stuck p ↔
      ∃ set, Reached p (.selectionSet set) n ∧ ∀ x ∈ set.selections, x.drops p = true := by
  have hdrops : ∀ set : SelectionSet, (∀ c ∈ (selectionSet set).children, c.node.drops p = true) ↔
      ∀ x ∈ set.selections, x.drops p = true := by
    intro set
    simp only [children, Child.forall_members (P := fun k => k.drops p = true), drops_toNode]
  constructor
  · rintro ⟨m, hm, hemptied⟩
    cases m with
    | selectionSet set => exact ⟨set, hm, (hdrops set).mp hemptied.drops⟩
    | _ => cases hemptied.shape
  · rintro ⟨set, hset, hall⟩
    refine ⟨_, hset, rfl, fun hnil => ?_, (hdrops set).mpr hall⟩
    have hlawful : set.selections ≠ [] := h _ hset.inside
    have hlength := congrArg List.length hnil
    simp only [children, Child.members, Child.length_listFrom, List.length_map] at hlength
    exact hlawful (List.eq_nil_of_length_eq_zero hlength)

end Node

/-- A selection set that is not below a field left out has only fields that are. -/
def Document.Loses (p : FieldTest) (d : Document) : Prop :=
  ∃ set, Node.Reached p (.selectionSet set) (.document d) ∧ ∀ x ∈ set.selections, x.drops p = true

/-- A visitor that deletes certain fields leaves, of a document that was read, the document
without these fields and all that is below them; it fails just if a selection set that is not
below such a field would lose all its selections. Where nothing was deleted, the document is
still the very same one, as is what was left when it is visited once more. -/
theorem dropping_filters {v : Visitor γ σ} (hv : v.Drops p) {source : String} {d : Document}
    (h : Production.document.parse source = .ok d) (c : γ) (s : σ) :
    (∃ a, v.Ends (.document d) c s a ∧
      (d.Loses p → a.outcome = .error .emptiedSelectionSet) ∧
      (¬ d.Loses p → ∃ fate, a.outcome = .ok fate ∧
        fate.node? (.document d) = some (.document (d.without p)) ∧
        (fate = .kept ↔ d.without p = d))) ∧
    ∀ c s, ∃ b, v.Ends (.document (d.without p)) c s b ∧ b.outcome = .ok .kept := by
  have hlawful : (Node.document d).Throughout Node.Lawful :=
    (Node.document d).valid_iff_throughout.mp (valid_of_parse h)
  have hstuck : (Node.document d).Stuck p ↔ d.Loses p := Node.stuck_iff_of_lawful hlawful
  constructor
  · obtain ⟨a, ha, -, hcomes⟩ := gives_drops hv (.document d) .root c s
    refine ⟨a, ha.ends, ?_⟩
    generalize a.outcome = outcome at hcomes
    cases hcomes with
    | stuck _ hs => exact ⟨fun _ => rfl, fun hnot => absurd (hstuck.mp hs) hnot⟩
    | fine hfine =>
      refine ⟨fun hloses => absurd (hstuck.mpr hloses) (hfine rfl), fun _ => ⟨_, rfl, ?_, ?_⟩⟩
      · rw [Node.node?_fate]
        rfl
      · have hsame : (Node.document d).without p = .document d ↔ d.without p = d :=
          ⟨Node.document.inj, congrArg Node.document⟩
        rw [Node.fate_eq_kept_iff, ← hsame]
        exact ⟨And.right, fun hkept => ⟨rfl, hkept⟩⟩
  · intro c s
    obtain ⟨b, hb, -, hcomes⟩ := gives_drops hv (.document (d.without p)) .root c s
    refine ⟨b, hb.ends, ?_⟩
    generalize b.outcome = outcome at hcomes
    cases hcomes with
    | stuck _ hs => exact absurd hs (Node.not_stuck_without (.document d))
    | fine _ =>
      have hkept : (Node.document (d.without p)).fate p = .kept :=
        Node.fate_eq_kept_iff.mpr ⟨rfl, Node.without_without (.document d)⟩
      rw [hkept]

/-- Deletes the fields of which a test is true. -/
def deleting (p : FieldTest) : Visitor Unit Unit where
  enter n _ c s := ⟨.ok (if n.drops p then .edit .delete else .next), c, s⟩
  leave := Hook.idle

/-- Whether a field has a name, whatever its alias is. -/
def named (text : String) : FieldTest := fun _ name => name.text == text

/-- A query with fields `b` at two depths. -/
def nestedQuery : Document :=
  ⟨[.operation (.ofSelectionSet ⟨[.field ⟨none, ⟨"b"⟩, [], [], some ⟨[.field (.leaf ⟨"a"⟩)]⟩⟩,
    .field ⟨some ⟨"b"⟩, ⟨"c"⟩, [], [], some ⟨[.field (.leaf ⟨"a"⟩), .field (.leaf ⟨"b"⟩)]⟩⟩]⟩)]⟩

/-- The field with the alias `b` has another name, so it stays, without the field `b` in it. -/
theorem dropping_filters_nested :
    (deleting (named "b")).Drops (named "b") ∧
      Production.document.parse "\x7b b \x7b a \x7d b: c \x7b a b \x7d \x7d" = .ok nestedQuery ∧
      nestedQuery.without (named "b") =
        ⟨[.operation (.ofSelectionSet ⟨[.field ⟨some ⟨"b"⟩, ⟨"c"⟩, [], [],
          some ⟨[.field (.leaf ⟨"a"⟩)]⟩⟩]⟩)]⟩ ∧
      (∃ a, (deleting (named "b")).Ends (.document nestedQuery) () () a ∧
        (nestedQuery.Loses (named "b") → a.outcome = .error .emptiedSelectionSet) ∧
        (¬ nestedQuery.Loses (named "b") → ∃ fate, a.outcome = .ok fate ∧
          fate.node? (.document nestedQuery) =
            some (.document (nestedQuery.without (named "b"))) ∧
          (fate = .kept ↔ nestedQuery.without (named "b") = nestedQuery))) ∧
      ∀ c s, ∃ b, (deleting (named "b")).Ends (.document (nestedQuery.without (named "b"))) c s b ∧
        b.outcome = .ok .kept := by
  have hdrops : (deleting (named "b")).Drops (named "b") :=
    ⟨fun _ _ _ _ => rfl, fun _ _ _ _ => rfl⟩
  have hparse : Production.document.parse "\x7b b \x7b a \x7d b: c \x7b a b \x7d \x7d" =
      .ok nestedQuery := ok_of_toOption (by decide +kernel)
  exact ⟨hdrops, hparse, by decide +kernel, dropping_filters hdrops hparse () ()⟩

end QueryDoc
