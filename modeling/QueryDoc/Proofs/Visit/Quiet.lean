import QueryDoc.Proofs.Tree.Inside
import QueryDoc.Proofs.Visit.Nesting
import QueryDoc.Proofs.Visit.Observer

/-! Walks without edits. A visitor whose hooks only go on, skip and stop gets the very root
back that it was given, not a copy of it and not an error: nowhere in the walk is a child
changed, so no node is rebuilt, whatever its shape. Teams of such visitors are such visitors. -/
namespace QueryDoc

variable {γ σ τ ρ : Type}

/-! ## Quiet visitors -/

/-- A hook that only goes on, skips and stops. -/
def Hook.Quiet (hook : Hook γ σ) : Prop :=
  ∀ n position c s, ∃ signal, (hook n position c s).signal = .ok signal ∧ signal.IsQuiet

/-- A visitor that only goes on, skips and stops. -/
structure Visitor.Quiet (v : Visitor γ σ) : Prop where
  enter : v.enter.Quiet
  leave : v.leave.Quiet

theorem Hook.quiet_idle : (Hook.idle : Hook γ σ).Quiet :=
  fun _ _ _ _ => ⟨.next, rfl, .inl rfl⟩

/-- Hooks for the shapes of nodes that are all quiet. -/
structure Hooks.Quiet (h : Hooks γ σ) : Prop where
  enterAny : h.enterAny.Quiet
  leaveAny : h.leaveAny.Quiet
  enterAt : ∀ shape, ∀ hook ∈ h.enterAt shape, hook.Quiet
  leaveAt : ∀ shape, ∀ hook ∈ h.leaveAt shape, hook.Quiet

theorem Hook.Quiet.onPlain {hook : Hook γ σ} (h : hook.Quiet) : (Hooks.onPlain hook).Quiet := by
  intro n position c s
  obtain ⟨signal, hsignal, hquiet⟩ := h n.plain position c s
  refine ⟨signal, ?_, hquiet⟩
  -- Only a node that is kept may be put in its plain form.
  rcases hquiet with rfl | rfl | rfl <;> simp only [Hooks.onPlain, hsignal]

theorem Hook.quiet_getD {byShape : Shape → Option (Hook γ σ)} {any : Hook γ σ}
    (hshape : ∀ shape, ∀ hook ∈ byShape shape, hook.Quiet) (hany : any.Quiet) :
    Hook.Quiet fun n => (byShape n.shape).getD any n := by
  intro n
  show ∀ position c s, ∃ signal,
    ((byShape n.shape).getD any n position c s).signal = .ok signal ∧ signal.IsQuiet
  cases hat : byShape n.shape with
  | none => exact hany n
  | some hook => exact hshape n.shape hook hat n

theorem Hooks.Quiet.visitor {h : Hooks γ σ} (hquiet : h.Quiet) : h.visitor.Quiet where
  enter := (Hook.quiet_getD hquiet.enterAt hquiet.enterAny).onPlain
  leave := (Hook.quiet_getD hquiet.leaveAt hquiet.leaveAny).onPlain

/-! ## Teams of quiet visitors -/

/-- A quiet hook is an observer, of which it does not matter what it leaves of a context that
nobody looks at. -/
theorem Visitor.Quiet.observes {v : Visitor γ σ} (h : v.Quiet) : v.Observes fun _ => () :=
  ⟨fun n position c s => ⟨h.enter n position c s, rfl⟩,
    fun n position c s => ⟨h.leave n position c s, rfl⟩⟩

/-- The signal of a pair for a node that neither of its visitors changes. -/
theorem Pass.isQuiet_signal (n : Node) (t t' : Turn) : ((start n).signal t t').IsQuiet := by
  unfold signal
  rw [if_neg (by simp)]
  split
  · exact .inr (.inr rfl)
  · show Signal.IsQuiet (if _ then _ else _)
    split
    · exact .inr (.inl rfl)
    · exact .inl rfl

theorem Visitor.Quiet.compose {a : Visitor γ σ} {b : Visitor γ τ} (ha : a.Quiet) (hb : b.Quiet) :
    (a.compose b).Quiet := by
  constructor
  · intro n position c p
    have hleaves : ((p.opened position).enterBoth a b ((p.opened position).depth + 1) n position
        c).Leaves (fun _ => ()) (.start n) c :=
      (ha.observes.enter_leaves _ position _ (.start n) c).andThen fun c' =>
        hb.observes.enter_leaves _ position _ (.start n) c'
    rw [Visitor.compose_enter_ok rfl rfl hleaves.pass]
    exact ⟨_, rfl, Pass.isQuiet_signal ..⟩
  · intro n position c p
    have hleaves : (p.leaveBoth a b n position c).Leaves (fun _ => ()) (.start n) c :=
      (ha.observes.leave_leaves _ position _ (.start n) c).andThen fun c' =>
        hb.observes.leave_leaves _ position _ (.start n) c'
    rw [Visitor.compose_leave_ok rfl hleaves.pass]
    exact ⟨_, rfl, Pass.isQuiet_signal ..⟩

/-- Each visitor of the team only goes on, skips and stops. -/
def Team.Quiet {σ ρ : Type} : Team γ σ ρ → Prop
  | .leaf v => v.Quiet
  | .pair a b => a.Quiet ∧ b.Quiet

theorem Team.Quiet.visitor {t : Team γ σ ρ} (h : t.Quiet) : t.visitor.Quiet := by
  induction t with
  | leaf v => exact h
  | pair a b iha ihb => exact (iha h.1).compose (ihb h.2)

/-! ## Walks -/

section Walks
variable {v : Visitor γ σ}

theorem leaveNode_quiet (hv : v.Quiet) (held n : Node) (position : Position) (c : γ) (s : σ) :
    (leaveNode v held n .kept position c s).outcome = .ok .kept := by
  obtain ⟨signal, hsignal, hquiet⟩ := hv.leave n position c s
  rw [leaveNode_ok rfl hsignal]
  rcases hquiet with rfl | rfl | rfl <;> rfl

/-- A node none of whose children changed is kept, whether the walk was stopped below it or it
is left. -/
theorem conclude_quiet (hv : v.Quiet) (held n : Node) (position : Position) {p : Passage γ σ}
    {entries : List (Option Node)} (hentries : p.entries = .ok entries)
    (hedited : p.edited = false) :
    (p.conclude v held n false position).outcome = .ok .kept := by
  have hclose : closeNode n false p.edited entries = .ok .kept := by rw [hedited]; rfl
  simp only [Passage.conclude, hentries, hclose]
  cases p.stopDepth with
  | some d => rfl
  | none => exact leaveNode_quiet hv held n position p.context p.state

theorem passes_quiet (parent : Node) (position : Position) (children : List Child)
    (h : ∀ child ∈ children, ∀ position c s,
      ∃ a, v.Gives child.node position c s a ∧ a.outcome = .ok .kept) (c : γ) (s : σ) :
    ∃ p, v.Passes parent position children c s p ∧
      p.entries = .ok (children.map (some ·.node)) ∧ p.edited = false := by
  induction children generalizing c s with
  | nil => exact ⟨_, .nil, rfl, rfl⟩
  | cons child children ih =>
    obtain ⟨first, hfirst, houtcome⟩ := h child List.mem_cons_self
      (position.child parent child.key) c s
    cases hstop : first.stopDepth with
    | some d => exact ⟨_, .stop hfirst houtcome hstop, rfl, rfl⟩
    | none =>
      obtain ⟨p, hp, hentries, hedited⟩ := ih (fun other hother =>
        h other (List.mem_cons_of_mem _ hother)) first.context first.state
      refine ⟨_, .cons hfirst houtcome hstop hp, ?_, ?_⟩
      · simp only [Passage.after, hentries]
        rfl
      · simp only [Passage.after, hedited]
        rfl

theorem gives_quiet (hv : v.Quiet) (n : Node) :
    ∀ position c s, ∃ a, v.Gives n position c s a ∧ a.outcome = .ok .kept := by
  induction n using Node.of_children with
  | h n ih =>
    intro position c s
    obtain ⟨signal, hsignal, hquiet⟩ := hv.enter n position c s
    rcases hquiet with rfl | rfl | rfl
    · obtain ⟨p, hp, hentries, hedited⟩ := passes_quiet n position n.children ih
        (v.enter n position c s).context (v.enter n position c s).state
      exact ⟨_, .descend rfl hsignal rfl hp, conclude_quiet hv n n position hentries hedited⟩
    · -- Below a node that is skipped there are no calls.
      exact ⟨_, .descend rfl hsignal rfl .nil, conclude_quiet hv n n position rfl rfl⟩
    · exact ⟨_, .stopped rfl hsignal, rfl⟩

end Walks

/-- A walk with a team of visitors that only go on, skip and stop ends with the very root. -/
theorem quiet_keeps_root {t : Team γ σ ρ} (h : t.Quiet) (root : Node) (c : γ) (s : σ) :
    ∃ a, t.visitor.Ends root c s a ∧ a.outcome = .ok .kept := by
  obtain ⟨a, ha, houtcome⟩ := gives_quiet h.visitor root .root c s
  exact ⟨a, ha.ends, houtcome⟩

/-- Leaves out what is below fields. -/
def skipFields : Hooks Unit Unit where
  enterAt
    | .field => some fun _ _ c s => ⟨.ok .skip, c, s⟩
    | _ => none

theorem quiet_skipFields : skipFields.Quiet where
  enterAny := Hook.quiet_idle
  leaveAny := Hook.quiet_idle
  enterAt := by
    intro shape hook hhook
    cases shape with
    | field =>
      cases hhook
      exact fun _ _ _ _ => ⟨.skip, rfl, .inr (.inl rfl)⟩
    | _ => cases hhook
  leaveAt := nofun

/-- In the tree is a selection set that could not be rebuilt. One visitor of a pair leaves out
what is below the field around it, and the other one stops there. -/
theorem quiet_keeps_root_illegal :
    let t := Team.pair (.leaf skipFields.visitor) (.leaf (Visitor.leaving fun _ => .stop))
    let root := Node.selectionSet ⟨[.field ⟨none, ⟨"a"⟩, [], [], some ⟨[]⟩⟩]⟩
    t.Quiet ∧ ∃ a, t.visitor.Ends root () (.start () ()) a ∧ a.outcome = .ok .kept := by
  intro t root
  have hquiet : t.Quiet :=
    ⟨quiet_skipFields.visitor, Hook.quiet_idle, fun _ _ _ _ => ⟨.stop, rfl, .inr (.inr rfl)⟩⟩
  exact ⟨hquiet, quiet_keeps_root hquiet root () (.start () ())⟩

end QueryDoc
