import QueryDoc.Proofs.Visit.Agreement
import QueryDoc.Proofs.Visit.Nesting

/-! Walks of nodes in two forms. Hooks see the plain form of a node, and below a named type
there is the same in both forms, so a walk does not depend on the form of named types, neither
of its root nor of what a visitor puts in the place of a node. Below a variable in the form of
a value its name is missed: there a visitor has no calls, and its edits are lost. For visitors
that overlook these names the form of variables makes no difference either. -/
namespace QueryDoc

variable {γ σ : Type} {vars : Bool}

/-! ## Entering -/

/-- The nodes that a walk goes on below, in the places of two forms of a node. -/
structure Descents (vars : Bool) (n n' m m' : Node) (changed changed' : Bool) : Prop where
  twins : m.Twins vars m'
  left : changed = false → m = n
  right : changed' = false → m' = n'
  changed : n = n' → changed = changed'

/-- Walks that go on alike after two forms of a node were entered. -/
inductive OpeningsAlike (vars : Bool) (n n' : Node) :
    Signal.Opening → Signal.Opening → Prop where
  | descend {m m' : Node} {changed changed' : Bool}
      (h : Descents vars n n' m m' changed changed') :
      OpeningsAlike vars n n' (.descend m changed m.children)
        (.descend m' changed' m'.children)
  | skip (h : Descents vars n n' n n' false false) :
      OpeningsAlike vars n n' (.descend n false []) (.descend n' false [])
  | deleted : OpeningsAlike vars n n' .deleted .deleted
  | stopped : OpeningsAlike vars n n' .stopped .stopped

theorem Signal.Twins.opening {n n' : Node} {signal signal' : Signal}
    (h : signal.Twins vars n n' signal') (hn : n.Twins vars n') :
    OpeningsAlike vars n n' (signal.opening n) (signal'.opening n') := by
  have hkept : Descents vars n n' n n' false false :=
    ⟨hn, fun _ => rfl, fun _ => rfl, fun _ => rfl⟩
  cases h with
  | same =>
    cases signal with
    | next => exact .descend hkept
    | skip => exact .skip hkept
    | stop => exact .stopped
    | edit e =>
      cases e with
      | keep => exact .descend hkept
      | replace r => exact .descend ⟨.same r, nofun, nofun, fun _ => rfl⟩
      | restore r =>
        refine .descend ⟨.same r, fun h => ?_, fun h => ?_, fun heq => by rw [heq]⟩
        · simpa using h
        · simpa using h
      | delete => exact .deleted
  | replaced h => exact .descend ⟨h, nofun, nofun, fun _ => rfl⟩
  | keptRight hne h => exact .descend ⟨h, nofun, fun _ => rfl, fun heq => absurd heq hne⟩
  | keptLeft hne h => exact .descend ⟨h, fun _ => rfl, nofun, fun heq => absurd heq hne⟩

/-! ## Leaving -/

/-- What became of two forms of a node. -/
structure Fate.Twins (vars : Bool) (n n' : Node) (fate fate' : Fate) : Prop where
  node : Option.Rel (Node.Twins vars) (fate.node? n) (fate'.node? n')
  edited : n = n' → fate.isEdit = fate'.isEdit

theorem Fate.Twins.plain_node? {n n' : Node} {fate fate' : Fate}
    (h : fate.Twins vars n n' fate') :
    (fate.node? n).map Node.plain = (fate'.node? n').map Node.plain := by
  have hnode := h.node
  generalize fate.node? n = x at hnode ⊢
  generalize fate'.node? n' = y at hnode ⊢
  cases hnode with
  | none => rfl
  | some h => exact congrArg some h.plain_eq

/-- The nodes `k` and `k'` that two forms of a node have become below. -/
structure Closed (vars : Bool) (n n' k k' : Node) (fate fate' : Fate) : Prop where
  twins : k.Twins vars k'
  left : fate.node? n = some k
  right : fate'.node? n' = some k'
  edited : n = n' → fate.isEdit = fate'.isEdit

theorem Closed.fate {n n' k k' : Node} {fate fate' : Fate}
    (h : Closed vars n n' k k' fate fate') : fate.Twins vars n n' fate' := by
  refine ⟨?_, h.edited⟩
  rw [h.left, h.right]
  exact .some h.twins

/-- Where forms differ after the same node, it was edited. -/
theorem Closed.isEdit {n n' k k' : Node} {fate fate' : Fate}
    (h : Closed vars n n' k k' fate fate') (hne : k ≠ k') (heq : n = n') :
    fate.isEdit = true ∧ fate'.isEdit = true := by
  have hedited := h.edited heq
  cases fate with
  | kept =>
    cases fate' with
    | kept =>
      have hk : n = k := Option.some.inj h.left
      have hk' : n' = k' := Option.some.inj h.right
      exact absurd (hk.symm.trans (heq.trans hk')) hne
    | changed m' | deleted => cases hedited
  | changed m | deleted => exact ⟨rfl, hedited.symm⟩

theorem Signal.Twins.closing {n n' k k' : Node} {fate fate' : Fate} {signal signal' : Signal}
    (h : signal.Twins vars k k' signal') (hclosed : Closed vars n n' k k' fate fate') :
    (signal.closing n fate).Twins vars n n' (signal'.closing n' fate') := by
  cases h with
  | same =>
    cases signal with
    | next | skip | stop => exact hclosed.fate
    | edit e =>
      cases e with
      | keep => exact hclosed.fate
      | replace r => exact ⟨.some (.same r), fun _ => rfl⟩
      | restore r =>
        -- One of two forms may be the node that is given back, and the other one not.
        refine ⟨?_, fun heq => ?_⟩
        · rw [Signal.node?_closing_restore, Signal.node?_closing_restore]
          exact .some (.same r)
        · subst heq
          rfl
      | delete => exact ⟨.none, fun _ => rfl⟩
  | replaced h => exact ⟨.some h, fun _ => rfl⟩
  | keptRight hne h =>
    refine ⟨?_, fun heq => (hclosed.isEdit hne heq).2.symm⟩
    show Option.Rel _ _ (fate'.node? n')
    rw [hclosed.right]
    exact .some h
  | keptLeft hne h =>
    refine ⟨?_, fun heq => (hclosed.isEdit hne heq).1⟩
    show Option.Rel _ (fate.node? n) _
    rw [hclosed.left]
    exact .some h

theorem Signal.Twins.stop_iff {n n' : Node} {signal signal' : Signal}
    (h : signal.Twins vars n n' signal') : signal = .stop ↔ signal' = .stop := by
  cases h with
  | same => rfl
  | replaced h => exact ⟨nofun, nofun⟩
  | keptRight hne h => exact ⟨nofun, nofun⟩
  | keptLeft hne h => exact ⟨nofun, nofun⟩

/-- Answers for two forms of a node. -/
structure Answer.Twins (vars : Bool) (n n' : Node) (a b : Answer γ σ) : Prop where
  outcome : OutcomesAlike (Fate.Twins vars n n') a.outcome b.outcome
  stopDepth : a.stopDepth = b.stopDepth
  context : a.context = b.context
  state : a.state = b.state

/-- What became of the children of two nodes, with related entries. -/
structure Passage.Twins (R : List (Option Node) → List (Option Node) → Prop)
    (p q : Passage γ σ) : Prop where
  entries : OutcomesAlike R p.entries q.entries
  edited : p.edited = q.edited
  stopDepth : p.stopDepth = q.stopDepth
  context : p.context = q.context
  state : p.state = q.state

section Walk
variable {v w : Visitor γ σ} {n n' m m' k k' : Node} {position position' : Position}

theorem leaveNode_twins (hagrees : v.Agrees vars w)
    (hposition : position.plain = position'.plain) {fate fate' : Fate}
    (hclosed : Closed vars n n' k k' fate fate') (hm : fate.node? m = some k)
    (hm' : fate'.node? m' = some k') (c : γ) (s : σ) :
    (leaveNode v n m fate position c s).Twins vars n n'
      (leaveNode w n' m' fate' position' c s) := by
  obtain ⟨hsignal, hcontext, hstate⟩ := hagrees.leave k k' position position' c s hclosed.twins
    hposition
  have hx : v.leave ((fate.node? m).getD m) position c s = v.leave k position c s := by rw [hm]; rfl
  have hy : w.leave ((fate'.node? m').getD m') position' c s = w.leave k' position' c s := by
    rw [hm']
    rfl
  generalize hsx : (v.leave k position c s).signal = sx at hsignal
  generalize hsy : (w.leave k' position' c s).signal = sy at hsignal
  cases hsignal with
  | error e =>
    rw [leaveNode_error hx hsx, leaveNode_error hy hsy]
    exact ⟨.error e, rfl, hcontext, hstate⟩
  | ok h =>
    rw [leaveNode_ok hx hsx, leaveNode_ok hy hsy]
    refine ⟨.ok (h.closing hclosed), ?_, hcontext, hstate⟩
    simp only [h.stop_iff, Position.length_alike hposition]

/-- Two nodes may be rebuilt around these entries. -/
def Rebuilds (m m' : Node) (entries entries' : List (Option Node)) : Prop :=
  m.children = m'.children ∧ Refill.FormsOf entries entries'

theorem closeNode_twins {changed changed' edited : Bool} {entries entries' : List (Option Node)}
    (hdescents : Descents vars n n' m m' changed changed')
    (hentries : edited = true → Rebuilds m m' entries entries') :
    OutcomesAlike (fun fate fate' => ∃ k k', Closed vars n n' k k' fate fate' ∧
        fate.node? m = some k ∧ fate'.node? m' = some k')
      (closeNode m changed edited entries) (closeNode m' changed' edited entries') := by
  cases edited with
  | true =>
    refine (Node.refill_twins hdescents.twins (hentries rfl).1 (hentries rfl).2).bind ?_
    exact fun k k' h => .ok ⟨k, k', ⟨h, rfl, rfl, fun _ => rfl⟩, rfl, rfl⟩
  | false =>
    refine .ok ⟨m, m', ⟨hdescents.twins, ?_, ?_, ?_⟩, ?_, ?_⟩
    · cases changed with
      | true => rfl
      | false => exact congrArg some (hdescents.left rfl).symm
    · cases changed' with
      | true => rfl
      | false => exact congrArg some (hdescents.right rfl).symm
    · intro heq
      rw [hdescents.changed heq]
      cases changed' <;> rfl
    · cases changed <;> rfl
    · cases changed' <;> rfl

theorem conclude_twins (hagrees : v.Agrees vars w)
    (hposition : position.plain = position'.plain) {changed changed' : Bool}
    (hdescents : Descents vars n n' m m' changed changed') {p q : Passage γ σ}
    (hpq : p.Twins (fun es es' => p.edited = true → Rebuilds m m' es es') q) :
    (p.conclude v n m changed position).Twins vars n n'
      (q.conclude w n' m' changed' position') := by
  obtain ⟨entries, edited, stopDepth, c, s⟩ := p
  obtain ⟨entries', edited', stopDepth', c', s'⟩ := q
  obtain ⟨hentries, rfl, rfl, rfl, rfl⟩ := hpq
  simp only [Passage.conclude]
  cases hentries with
  | error e => exact ⟨.error e, rfl, rfl, rfl⟩
  | ok hentries =>
    have hclose := closeNode_twins hdescents hentries
    generalize hx : closeNode m changed edited _ = x at hclose
    generalize hy : closeNode m' changed' edited _ = y at hclose
    simp only [hx, hy]
    cases hclose with
    | error e => exact ⟨.error e, rfl, rfl, rfl⟩
    | ok h =>
      obtain ⟨k, k', hclosed, hm, hm'⟩ := h
      cases stopDepth with
      | some d => exact ⟨.ok hclosed.fate, rfl, rfl, rfl⟩
      | none => exact leaveNode_twins hagrees hposition hclosed hm hm' _ _

/-! ## Names of variables -/

/-- A name that the visitor overlooks stays as it is. -/
theorem gives_name (hnames : v.OverlooksNames) (x : Name) (hbelow : position.belowVariable = true)
    (c : γ) (s : σ) : v.Gives (.name x) position c s ⟨.ok .kept, none, c, s⟩ := by
  have henter : v.enter (.name x) position c s = ⟨.ok .next, c, s⟩ :=
    hnames .entering _ _ _ _ hbelow
  have hleave : v.leave (.name x) position c s = ⟨.ok .next, c, s⟩ :=
    hnames .leaving _ _ _ _ hbelow
  have hgives := Visitor.Gives.descend henter rfl rfl Visitor.Passes.nil
  rw [Passage.conclude_leave rfl rfl rfl, leaveNode_ok hleave rfl] at hgives
  exact hgives

theorem passes_name (hnames : v.OverlooksNames) (hkind : m.kind = .variable) (x : Name)
    (c : γ) (s : σ) :
    v.Passes m position (Child.single .name (.name x)) c s
      ⟨.ok [some (.name x)], false, none, c, s⟩ := by
  have hbelow : (position.child m [.name]).belowVariable = true := by
    rw [Position.belowVariable_child, hkind]
    rfl
  let child : Child := ⟨[.name], .name x⟩
  have hgives : v.Gives child.node (position.child m child.key) c s ⟨.ok .kept, none, c, s⟩ :=
    gives_name hnames x hbelow c s
  exact Visitor.Passes.cons hgives rfl rfl .nil

theorem passes_unique {children : List Child} {c : γ} {s : σ} {p q : Passage γ σ}
    (h : v.Passes m position children c s p) (h' : v.Passes m position children c s q) :
    p = q := by
  obtain ⟨depth, h⟩ := h
  obtain ⟨depth', h'⟩ := h'
  have hp := walkChildren_extends (walk_le v (Nat.le_max_left depth depth')) _ _ _ _ _ p h
  have hq := walkChildren_extends (walk_le v (Nat.le_max_right depth depth')) _ _ _ _ _ q h'
  exact Option.some.inj (hp.symm.trans hq)

/-! ## Walks -/

/-- The walks of a visitor down to a depth are those of another one, but for forms. -/
def WalksTwins (vars : Bool) (v w : Visitor γ σ) (depth : Nat) : Prop :=
  ∀ (n n' : Node) (position position' : Position) c s a, n.Twins vars n' →
    position.plain = position'.plain → walk v depth n position c s = some a →
    ∃ b, w.Gives n' position' c s b ∧ a.Twins vars n n' b

variable {depth : Nat}

theorem walkChildren_twins (ih : WalksTwins vars v w depth) (hm : m.plain = m'.plain)
    (hposition : position.plain = position'.plain) :
    ∀ (children : List Child) (c : γ) (s : σ) (p : Passage γ σ),
      walkChildren (walk v depth) m position children c s = some p →
      ∃ q, w.Passes m' position' children c s q ∧ p.Twins Refill.FormsOf q := by
  intro children
  induction children with
  | nil =>
    rintro c s p ⟨⟩
    exact ⟨_, .nil, .ok rfl, rfl, rfl, rfl, rfl⟩
  | cons child children ihc =>
    intro c s p hp
    have hchild := fun first hfirst => ih _ _ _ _ c s first (.same child.node)
      (Position.child_alike hposition hm child.key) hfirst
    cases walkChildren_proceeds hp with
    | error hfirst hx =>
      obtain ⟨b, hgives, houtcome, hstop, hcontext, hstate⟩ := hchild _ hfirst
      rw [hx] at houtcome
      generalize hy : b.outcome = y at houtcome
      cases houtcome with
      | error => exact ⟨_, .error hgives hy, .error _, rfl, hstop, hcontext, hstate⟩
    | stop hfirst hx hdepth =>
      obtain ⟨b, hgives, houtcome, hstop, hcontext, hstate⟩ := hchild _ hfirst
      rw [hx] at houtcome
      generalize hy : b.outcome = y at houtcome
      cases houtcome with
      | @ok fate fate' hfate =>
        refine ⟨_, .stop hgives hy (hstop.symm.trans hdepth), .ok ?_, hfate.edited rfl, rfl,
          hcontext, hstate⟩
        simp only [Refill.FormsOf, List.map_cons, hfate.plain_node?]
    | next hfirst hx hdepth hothers =>
      obtain ⟨b, hgives, houtcome, hstop, hcontext, hstate⟩ := hchild _ hfirst
      rw [hx] at houtcome
      generalize hy : b.outcome = y at houtcome
      cases houtcome with
      | @ok fate fate' hfate =>
        rw [hcontext, hstate] at hothers
        obtain ⟨q, hpasses, hq⟩ := ihc _ _ _ hothers
        refine ⟨_, .cons hgives hy (hstop.symm.trans hdepth) hpasses, ?_, ?_, hq.stopDepth,
          hq.context, hq.state⟩
        · refine hq.entries.map fun es es' hes => ?_
          simp only [Refill.FormsOf, List.map_cons, hfate.plain_node?]
          exact congrArg _ hes
        · simp only [Passage.after, hfate.edited rfl, hq.edited]

/-- Below two forms of a node either the same children are walked, or none is edited. -/
theorem below_twins (hnames : vars = true → v.OverlooksNames ∧ w.OverlooksNames)
    (ih : WalksTwins vars v w depth) (hm : m.Twins vars m')
    (hposition : position.plain = position'.plain) {c : γ} {s : σ} {p : Passage γ σ}
    (hp : walkChildren (walk v depth) m position m.children c s = some p) :
    ∃ q, w.Passes m' position' m'.children c s q ∧
      p.Twins (fun es es' => p.edited = true → Rebuilds m m' es es') q := by
  rcases hm.children_eq with hsame | ⟨hvariables, x, ⟨hnone, hname⟩ | ⟨hname, hnone⟩, hk, hk'⟩
  · obtain ⟨q, hpasses, hq⟩ := walkChildren_twins ih hm.plain_eq hposition _ _ _ _ hp
    exact ⟨q, hsame ▸ hpasses, hq.entries.imp fun _ _ hforms _ => ⟨hsame, hforms⟩, hq.edited,
      hq.stopDepth, hq.context, hq.state⟩
  · rw [hnone] at hp
    cases hp
    rw [hname]
    exact ⟨_, passes_name (hnames hvariables).2 hk' x.name c s, .ok nofun, rfl, rfl, rfl, rfl⟩
  · rw [hname] at hp
    rw [hnone]
    cases passes_unique ⟨depth, hp⟩ (passes_name (hnames hvariables).1 hk x.name c s)
    exact ⟨_, .nil, .ok nofun, rfl, rfl, rfl, rfl⟩

theorem walk_twins (hagrees : v.Agrees vars w)
    (hnames : vars = true → v.OverlooksNames ∧ w.OverlooksNames) (depth : Nat) :
    WalksTwins vars v w depth := by
  induction depth with
  | zero =>
    intro n n' position position' c s a hn hposition ha
    cases ha
  | succ depth ih =>
    intro n n' position position' c s a hn hposition ha
    have hreply := hagrees.enter n n' position position' c s hn hposition
    generalize hx : v.enter n position c s = x at hreply
    generalize hy : w.enter n' position' c s = y at hreply
    obtain ⟨signal, c₁, s₁⟩ := x
    obtain ⟨signal', _, _⟩ := y
    obtain ⟨hsignal, rfl, rfl⟩ := hreply
    cases hsignal with
    | error e =>
      rw [walk_error hx rfl] at ha
      cases ha
      exact ⟨_, ⟨1, walk_error hy rfl⟩, .error e, rfl, rfl, rfl⟩
    | @ok signal signal' hsignal =>
      have hopening := hsignal.opening hn
      generalize ho : signal.opening n = o at hopening
      generalize ho' : signal'.opening n' = o' at hopening
      cases hopening with
      | deleted =>
        rw [walk_deleted hx rfl ho] at ha
        cases ha
        exact ⟨_, ⟨1, walk_deleted hy rfl ho'⟩, .ok ⟨.none, fun _ => rfl⟩, rfl, rfl, rfl⟩
      | stopped =>
        rw [walk_stopped hx rfl ho] at ha
        cases ha
        refine ⟨_, ⟨1, walk_stopped hy rfl ho'⟩, .ok ⟨.some hn, fun _ => rfl⟩, ?_, rfl, rfl⟩
        exact congrArg some (Position.length_alike hposition)
      | skip hdescents =>
        rw [walk_descend hx rfl ho] at ha
        cases ha
        refine ⟨_, .descend hy rfl ho' .nil, ?_⟩
        exact conclude_twins hagrees hposition hdescents ⟨.ok nofun, rfl, rfl, rfl, rfl⟩
      | descend hdescents =>
        rw [walk_descend hx rfl ho, Option.map_eq_some_iff] at ha
        obtain ⟨p, hp, rfl⟩ := ha
        obtain ⟨q, hpasses, hpq⟩ := below_twins hnames ih hdescents.twins hposition hp
        exact ⟨_, .descend hy rfl ho' hpasses,
          conclude_twins hagrees hposition hdescents hpq⟩

end Walk

/-! ## Calls -/

/-- Notes each call in plain form after the earlier ones, without those at the names of
variables where `vars` says so. -/
def Hook.minuted (vars : Bool) (phase : Phase) (hook : Hook γ σ) : Hook γ (σ × List Call) :=
  fun n position c s =>
    let reply := hook n position c s.1
    ⟨reply.signal, reply.context, reply.state,
      if vars && position.belowVariable then s.2
      else s.2 ++ [⟨phase, n.plain, position.plain⟩]⟩

/-- The visitor with a record of its calls in plain form. -/
def Visitor.minuted (vars : Bool) (v : Visitor γ σ) : Visitor γ (σ × List Call) :=
  ⟨v.enter.minuted vars .entering, v.leave.minuted vars .leaving⟩

theorem Hook.Agrees.minuted {hook hook' : Hook γ σ} (h : hook.Agrees vars hook')
    (phase : Phase) :
    (hook.minuted vars phase).Agrees vars (hook'.minuted vars phase) := by
  intro n n' position position' c s hn hposition
  obtain ⟨hsignal, hcontext, hstate⟩ := h n n' position position' c s.1 hn hposition
  refine ⟨hsignal, hcontext, Prod.ext hstate ?_⟩
  simp only [Hook.minuted, hn.plain_eq, hposition, Position.belowVariable_alike hposition]

theorem Visitor.Agrees.minuted {v w : Visitor γ σ} (h : v.Agrees vars w) :
    (v.minuted vars).Agrees vars (w.minuted vars) :=
  ⟨h.enter.minuted .entering, h.leave.minuted .leaving⟩

theorem Visitor.OverlooksNames.minuted {v : Visitor γ σ} (h : v.OverlooksNames) :
    (v.minuted true).OverlooksNames := by
  intro phase x position c s hbelow
  have hreply := h phase x position c s.1 hbelow
  cases phase with
  | entering =>
    have henter : v.enter (.name x) position c s.1 = ⟨.ok .next, c, s.1⟩ := hreply
    simp only [hook, Visitor.minuted, Hook.minuted, henter, hbelow, Bool.and_self, if_true]
  | leaving =>
    have hleave : v.leave (.name x) position c s.1 = ⟨.ok .next, c, s.1⟩ := hreply
    simp only [hook, Visitor.minuted, Hook.minuted, hleave, hbelow, Bool.and_self, if_true]

/-- The result of a walk in plain form: the node that there is now, if any. -/
def Answer.plain? (a : Answer γ σ) (root : Node) : Except Error (Option Node) :=
  a.outcome.map fun fate => (fate.node? root).map Node.plain

/-- The same answers for two roots, but for forms. -/
structure Answer.SamePlain (root root' : Node) (a b : Answer γ σ) : Prop where
  result : a.plain? root = b.plain? root'
  stopDepth : a.stopDepth = b.stopDepth
  context : a.context = b.context
  state : a.state = b.state

theorem Answer.Twins.samePlain {root root' : Node} {a b : Answer γ σ}
    (h : a.Twins vars root root' b) : a.SamePlain root root' b := by
  refine ⟨?_, h.stopDepth, h.context, h.state⟩
  have houtcome := h.outcome
  unfold Answer.plain?
  generalize a.outcome = x at houtcome ⊢
  generalize b.outcome = y at houtcome ⊢
  cases houtcome with
  | error e => rfl
  | ok hfate => exact congrArg Except.ok hfate.plain_node?

theorem Answer.SamePlain.symm {root root' : Node} {a b : Answer γ σ}
    (h : a.SamePlain root root' b) : b.SamePlain root' root a :=
  ⟨h.result.symm, h.stopDepth.symm, h.context.symm, h.state.symm⟩

theorem ends_samePlain {v w : Visitor γ σ} (hagrees : v.Agrees vars w)
    (hnames : vars = true → v.OverlooksNames ∧ w.OverlooksNames) {root root' : Node}
    (hroot : root.Twins vars root') {c : γ} {s : σ} {a : Answer γ (σ × List Call)}
    (ha : (v.minuted vars).Ends root c (s, []) a) :
    ∃ b, (w.minuted vars).Ends root' c (s, []) b ∧ a.SamePlain root root' b := by
  obtain ⟨depth, hwalk⟩ := Visitor.ends_iff.mp ha
  have hminuted : vars = true →
      (v.minuted vars).OverlooksNames ∧ (w.minuted vars).OverlooksNames := by
    rintro rfl
    exact ⟨(hnames rfl).1.minuted, (hnames rfl).2.minuted⟩
  obtain ⟨b, hgives, hb⟩ := walk_twins hagrees.minuted hminuted depth root root' .root .root c _ a
    hroot rfl hwalk
  exact ⟨b, hgives.ends, hb.samePlain⟩

/-- The form of named types makes no difference to a walk, whether it is the root that has
another form or a node that the visitor puts in the place of one: there are the same calls
with the same nodes and paths, and the same result but for forms. The same holds of variables
if the visitor overlooks their names; calls for these names are then left aside. -/
theorem forms_endAlike {v w : Visitor γ σ} (hagrees : v.Agrees vars w)
    (hnames : vars = true → v.OverlooksNames ∧ w.OverlooksNames) {root root' : Node}
    (hroot : root.Twins vars root') (c : γ) (s : σ) :
    (∀ a, (v.minuted vars).Ends root c (s, []) a →
      ∃ b, (w.minuted vars).Ends root' c (s, []) b ∧ a.SamePlain root root' b) ∧
    (∀ b, (w.minuted vars).Ends root' c (s, []) b →
      ∃ a, (v.minuted vars).Ends root c (s, []) a ∧ a.SamePlain root root' b) := by
  refine ⟨fun a ha => ends_samePlain hagrees hnames hroot ha, fun b hb => ?_⟩
  obtain ⟨a, ha, hab⟩ := ends_samePlain hagrees.symm (fun h => (hnames h).symm) hroot.symm hb
  exact ⟨a, ha, hab.symm⟩

/-- Puts a name in the place of each name. -/
def relabeling (x : Name) : Hooks Unit Unit where
  enterAt
    | .name => some fun _ _ c s => ⟨.ok (.edit (.replace (.name x))), c, s⟩
    | _ => none

theorem agrees_relabeling (x : Name) : (relabeling x).visitor.Agrees vars (relabeling x).visitor := by
  have hidle : (Hook.idle : Hook Unit Unit).LooksPlain := fun _ _ _ _ _ _ => rfl
  refine (Hooks.agrees_self hidle hidle (fun shape hook hhook => ?_) nofun).visitor
  cases shape with
  | name =>
    cases hhook
    exact fun _ _ _ _ _ _ => rfl
  | _ => cases hhook

/-- Puts a node in the place of the truth value `true`. -/
def filling (n : Node) : Visitor Unit Unit := .entering (Signal.only (.edit (.replace n)) (flag true))

theorem agrees_filling {n n' : Node} (hn : n.Twins vars n') :
    (filling n).Agrees vars (filling n') := by
  refine ⟨fun m m' position position' c s hm _ => ⟨.ok ?_, rfl, rfl⟩,
    fun m m' position position' c s hm _ => ⟨.ok (.same _), rfl, rfl⟩⟩
  cases hm with
  | same =>
    by_cases hflag : m = flag true
    · simp only [Signal.only, hflag, if_true]
      exact .replaced hn
    · simp only [Signal.only, hflag, if_false]
      exact .same _
  | rawType | plainType | rawVariable | plainVariable => exact .same _

theorem overlooksNames_filling (n : Node) : (filling n).OverlooksNames := by
  intro phase x position c s _
  cases phase <;> rfl

/-- The name of a named type is replaced in either form of it, and a variable may be put in the
place of a value in either form. -/
theorem forms_endAlike_relabeling :
    (∃ a b, ((relabeling ⟨"B"⟩).visitor.minuted false).Ends (.typeRef (.named ⟨⟨"A"⟩⟩)) () ((), []) a ∧
      ((relabeling ⟨"B"⟩).visitor.minuted false).Ends (.namedType ⟨⟨"A"⟩⟩) () ((), []) b ∧
      a.plain? (.typeRef (.named ⟨⟨"A"⟩⟩)) = .ok (some (.namedType ⟨⟨"B"⟩⟩)) ∧
      b.state.2.map (·.node) =
        [.namedType ⟨⟨"A"⟩⟩, .name ⟨"A"⟩, .name ⟨"B"⟩, .namedType ⟨⟨"B"⟩⟩]) ∧
    ∃ a b, ((filling (.value (.variable ⟨⟨"x"⟩⟩))).minuted true).Ends (flags [true]) () ((), []) a ∧
      ((filling (.variable ⟨⟨"x"⟩⟩)).minuted true).Ends (flags [true]) () ((), []) b ∧
      a.plain? (flags [true]) = .ok (some (.value (.list [.variable ⟨⟨"x"⟩⟩]))) ∧
      b.state.2.map (·.node) = [flags [true], flag true, .variable ⟨⟨"x"⟩⟩,
        .value (.list [.variable ⟨⟨"x"⟩⟩])] := by
  constructor
  · have hrun : (visit 20 ((relabeling ⟨"B"⟩).visitor.minuted false) (.typeRef (.named ⟨⟨"A"⟩⟩)) ()
        ((), [])).map (fun a => (a.plain? (.typeRef (.named ⟨⟨"A"⟩⟩)), a.state.2.map (·.node))) =
        some (.ok (some (.namedType ⟨⟨"B"⟩⟩)),
          [.namedType ⟨⟨"A"⟩⟩, .name ⟨"A"⟩, .name ⟨"B"⟩, .namedType ⟨⟨"B"⟩⟩]) := by
      decide +kernel
    obtain ⟨a, ha, hseen⟩ := Option.map_eq_some_iff.mp hrun
    obtain ⟨hresult, hcalls⟩ := Prod.mk.inj hseen
    have hagrees : (relabeling ⟨"B"⟩).visitor.Agrees false (relabeling ⟨"B"⟩).visitor :=
      agrees_relabeling ⟨"B"⟩
    obtain ⟨b, hb, hab⟩ := (forms_endAlike hagrees nofun (.rawType ⟨⟨"A"⟩⟩) () ()).1 a ⟨20, ha⟩
    exact ⟨a, b, ⟨20, ha⟩, hb, hresult, hab.state ▸ hcalls⟩
  · have hrun : (visit 20 ((filling (.value (.variable ⟨⟨"x"⟩⟩))).minuted true) (flags [true]) ()
        ((), [])).map (fun a => (a.plain? (flags [true]), a.state.2.map (·.node))) =
        some (.ok (some (.value (.list [.variable ⟨⟨"x"⟩⟩]))), [flags [true], flag true,
          .variable ⟨⟨"x"⟩⟩, .value (.list [.variable ⟨⟨"x"⟩⟩])]) := by
      decide +kernel
    obtain ⟨a, ha, hseen⟩ := Option.map_eq_some_iff.mp hrun
    obtain ⟨hresult, hcalls⟩ := Prod.mk.inj hseen
    obtain ⟨b, hb, hab⟩ := (forms_endAlike (agrees_filling (.rawVariable rfl ⟨⟨"x"⟩⟩))
      (fun _ => ⟨overlooksNames_filling _, overlooksNames_filling _⟩) (.same (flags [true])) ()
      ()).1 a ⟨20, ha⟩
    exact ⟨a, b, ⟨20, ha⟩, hb, hresult, hab.state ▸ hcalls⟩

/-- A variable in the form of a value has no calls for its name, so that the name cannot be
replaced. -/
theorem variable_form_misses_name :
    let seen := fun root => (visit 20 ((relabeling ⟨"b"⟩).visitor.minuted false) root ()
      ((), [])).map fun a => (a.plain? root, a.state.2.map (·.node))
    seen (.value (.variable ⟨⟨"a"⟩⟩)) =
      some (.ok (some (.variable ⟨⟨"a"⟩⟩)), [.variable ⟨⟨"a"⟩⟩, .variable ⟨⟨"a"⟩⟩]) ∧
    seen (.variable ⟨⟨"a"⟩⟩) = some (.ok (some (.variable ⟨⟨"b"⟩⟩)),
      [.variable ⟨⟨"a"⟩⟩, .name ⟨"a"⟩, .name ⟨"b"⟩, .variable ⟨⟨"b"⟩⟩]) := by
  decide +kernel
end QueryDoc
