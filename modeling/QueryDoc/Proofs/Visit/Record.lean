import QueryDoc.Proofs.Visit.Walk

/-! What can be seen of a walk from outside: the calls of its visitor. A recorded
visitor notes every call, and a limited one gives up after a number of calls, so that a
walk with it ends whatever the visitor does. -/
namespace QueryDoc

/-! ## Calls -/

/-- Whether a hook is called on the way down or on the way up. -/
inductive Phase where
  | entering
  | leaving
deriving DecidableEq, Repr

/-- A call of a hook, with the node and where it stands. -/
structure Call where
  phase : Phase
  node : Node
  position : Position
deriving DecidableEq

namespace Hook

variable {γ σ : Type}

/-- Notes each call after the earlier ones. -/
def recorded (phase : Phase) (hook : Hook γ σ) : Hook γ (σ × List Call) :=
  fun n position context s =>
    let reply := hook n position context s.1
    ⟨reply.signal, reply.context, reply.state, s.2 ++ [⟨phase, n, position⟩]⟩

/-- Answers with an error when no more calls are left. -/
def limited (e : Error) (hook : Hook γ σ) : Hook γ (Nat × σ) :=
  fun n position context s =>
    match s.1 with
    | 0 => ⟨.error e, context, s⟩
    | left + 1 =>
      let reply := hook n position context s.2
      ⟨reply.signal, reply.context, left, reply.state⟩

/-- No call adds to the calls that are left. -/
theorem limited_left (e : Error) (hook : Hook γ σ) (n : Node) (position : Position)
    (context : γ) (s : Nat × σ) : (hook.limited e n position context s).state.1 ≤ s.1 := by
  obtain ⟨left, s⟩ := s
  cases left with
  | zero => exact Nat.le_refl 0
  | succ left => exact Nat.le_succ left

/-- A call that is not refused uses one up. -/
theorem limited_uses {e : Error} {hook : Hook γ σ} {n : Node} {position : Position}
    {context : γ} {s : Nat × σ} {signal : Signal}
    (h : (hook.limited e n position context s).signal = .ok signal) :
    (hook.limited e n position context s).state.1 < s.1 := by
  obtain ⟨left, s⟩ := s
  cases left with
  | zero => cases h
  | succ left => exact Nat.lt_succ_self left

end Hook

namespace Visitor

variable {γ σ : Type}

/-- The visitor with a record of its calls, the earliest first. -/
def recorded (v : Visitor γ σ) : Visitor γ (σ × List Call) :=
  ⟨v.enter.recorded .entering, v.leave.recorded .leaving⟩

/-- The visitor for as many calls as its state says; the call after these is answered
with an error. -/
def limited (e : Error) (v : Visitor γ σ) : Visitor γ (Nat × σ) :=
  ⟨v.enter.limited e, v.leave.limited e⟩

end Visitor

/-! ## Walks with a limited visitor end -/

section Limited
variable {γ σ : Type} {e : Error} {v : Visitor γ σ}
variable {w : Node → Position → γ → Nat × σ → Option (Answer γ (Nat × σ))} {bound : Nat}

/-- Wherever fewer calls are left than a bound, a walk for a single node answers and
leaves no more of them. -/
def EndsBelow (bound : Nat)
    (w : Node → Position → γ → Nat × σ → Option (Answer γ (Nat × σ))) : Prop :=
  ∀ n position context s, s.1 < bound →
    ∃ a, w n position context s = some a ∧ a.state.1 ≤ s.1

theorem walkChildren_ends (hw : EndsBelow bound w) (parent : Node) (position : Position) :
    ∀ (children : List Child) (context : γ) (s : Nat × σ), s.1 < bound →
      ∃ p, walkChildren w parent position children context s = some p ∧ p.state.1 ≤ s.1 := by
  intro children
  induction children with
  | nil =>
    intro context s _
    exact ⟨_, rfl, Nat.le_refl _⟩
  | cons c cs ih =>
    intro context s hs
    obtain ⟨first, hfirst, hleft⟩ := hw c.node (position.child parent c.key) context s hs
    cases houtcome : first.outcome with
    | error e => exact ⟨_, walkChildren_error parent position hfirst houtcome cs, hleft⟩
    | ok fate =>
      cases hstop : first.stopDepth with
      | some d => exact ⟨_, walkChildren_stop parent position hfirst houtcome hstop cs, hleft⟩
      | none =>
        -- The calls that the first child left are enough for the others.
        have hfewer : first.state.1 < bound := by omega
        obtain ⟨others, hothers, hrest⟩ := ih first.context first.state hfewer
        rw [walkChildren_next parent position hfirst houtcome hstop, hothers]
        exact ⟨_, rfl, Nat.le_trans hrest hleft⟩

theorem leaveNode_left (held n : Node) (fate : Fate) (position : Position) (context : γ)
    (s : Nat × σ) :
    (leaveNode (v.limited e) held n fate position context s).state.1 ≤ s.1 := by
  have hleave := Hook.limited_left e v.leave ((fate.node? n).getD n) position context s
  simp only [leaveNode]
  cases ((v.limited e).leave ((fate.node? n).getD n) position context s).signal with
  | error e => exact hleave
  | ok signal => exact hleave

theorem conclude_left (held n : Node) (changed : Bool) (position : Position)
    (p : Passage γ (Nat × σ)) :
    (p.conclude (v.limited e) held n changed position).state.1 ≤ p.state.1 := by
  unfold Passage.conclude
  split
  · exact Nat.le_refl _
  · split
    · exact Nat.le_refl _
    · split
      · exact Nat.le_refl _
      · exact leaveNode_left ..

theorem walkBelow_ends (hw : EndsBelow bound w) (held n : Node) (changed : Bool)
    (children : List Child) (position : Position) (context : γ) (s : Nat × σ)
    (hs : s.1 < bound) :
    ∃ a, walkBelow (v.limited e) w held n changed children position context s = some a ∧
      a.state.1 ≤ s.1 := by
  obtain ⟨p, hp, hleft⟩ := walkChildren_ends hw n position children context s hs
  rw [walkBelow_eq, hp]
  exact ⟨_, rfl, Nat.le_trans (conclude_left held n changed position p) hleft⟩

/-- Each level of a walk uses up a call, so a walk that may go deeper than calls are
left has an answer. -/
theorem walk_limited (depth : Nat) : EndsBelow depth (walk (v.limited e) depth) := by
  induction depth with
  | zero =>
    intro n position context s hs
    exact absurd hs (Nat.not_lt_zero _)
  | succ depth ih =>
    intro n position context s hs
    have henter := Hook.limited_left e v.enter n position context s
    simp only [walk]
    cases hsignal : ((v.limited e).enter n position context s).signal with
    | error e => exact ⟨_, rfl, henter⟩
    | ok signal =>
      have huses := Hook.limited_uses hsignal
      cases hopening : signal.opening n with
      | deleted => exact ⟨_, by simp only [hopening]; rfl, henter⟩
      | stopped => exact ⟨_, by simp only [hopening]; rfl, henter⟩
      | descend m changed children =>
        simp only [hopening]
        -- Below the node, one call less is left and one level less may be gone down.
        have hfewer : (v.enter.limited e n position context s).state.1 < depth := by omega
        obtain ⟨a, ha, hleft⟩ := walkBelow_ends ih n m changed children position
          (v.enter.limited e n position context s).context _ hfewer
        exact ⟨a, ha, Nat.le_trans hleft henter⟩

end Limited
end QueryDoc
