import QueryDoc.Proofs.Visit.Ends

/-! Visitors in lockstep. Two visitors whose replies agree, as long as their states are
related at the level of the walk, have walks that agree from the first call to the last. -/
namespace QueryDoc

namespace Signal

/-- What a signal wants on leaving a node, where to skip says nothing. -/
def upward : Signal → Signal
  | .skip => .next
  | signal => signal

theorem closing_upward (held : Node) (fate : Fate) (signal : Signal) :
    signal.upward.closing held fate = signal.closing held fate := by
  cases signal <;> rfl

theorem upward_eq_stop {signal : Signal} : signal.upward = .stop ↔ signal = .stop := by
  cases signal <;> simp [upward]

end Signal

section Rel
variable {α β α' β' : Type} {R : α → β → Prop} {R' : α' → β' → Prop} {a : Option α} {b : Option β}

theorem rel_bind {f : α → Option α'} {g : β → Option β'} (h : Option.Rel R a b)
    (hfg : ∀ x y, R x y → Option.Rel R' (f x) (g y)) : Option.Rel R' (a.bind f) (b.bind g) := by
  cases h with
  | none => exact .none
  | some h => exact hfg _ _ h

theorem rel_map {f : α → α'} {g : β → β'} (h : Option.Rel R a b)
    (hfg : ∀ x y, R x y → R' (f x) (g y)) : Option.Rel R' (a.map f) (b.map g) := by
  cases h with
  | none => exact .none
  | some h => exact .some (hfg _ _ h)

theorem rel_some_left {x : α} (h : Option.Rel R (some x) b) : ∃ y, b = some y ∧ R x y := by
  cases h with
  | some h => exact ⟨_, rfl, h⟩

theorem rel_some_right {y : β} (h : Option.Rel R a (some y)) : ∃ x, a = some x ∧ R x y := by
  cases h with
  | some h => exact ⟨_, rfl, h⟩

end Rel

/-- How many nodes are open after an answer to a node at a level, which is entered. Of a walk
that is over nothing is asked any more. -/
def levelEntered (level : Nat) : Except Error Signal → Nat
  | .ok (.edit .delete) => level
  | .ok .stop | .error _ => 0
  | .ok _ => level + 1

theorem levelEntered_deleted {signal : Signal} {n : Node} (level : Nat)
    (h : signal.opening n = .deleted) : levelEntered level (.ok signal) = level := by
  cases signal with
  | edit e => cases e <;> first | rfl | cases h
  | next | skip | stop => cases h

theorem levelEntered_stopped {signal : Signal} {n : Node} (level : Nat)
    (h : signal.opening n = .stopped) : levelEntered level (.ok signal) = 0 := by
  cases signal with
  | stop => rfl
  | edit e => cases e <;> cases h
  | next | skip => cases h

theorem levelEntered_descend {signal : Signal} {n m : Node} {changed : Bool}
    {children : List Child} (level : Nat) (h : signal.opening n = .descend m changed children) :
    levelEntered level (.ok signal) = level + 1 := by
  cases signal with
  | edit e => cases e <;> first | rfl | cases h
  | next | skip => rfl
  | stop => cases h

/-- The same for a node that is left. -/
def levelLeft (level : Nat) : Except Error Signal → Nat
  | .ok .stop | .error _ => 0
  | .ok _ => level

section Lockstep
variable {γ σ τ : Type}

/-- Answers to a node that agree. -/
structure Reply.EnterAlike (R : Nat → σ → τ → Prop) (level : Nat) (x : Reply γ σ)
    (y : Reply γ τ) : Prop where
  signal : x.signal = y.signal
  context : x.context = y.context
  state : R (levelEntered level x.signal) x.state y.state

structure Reply.LeaveAlike (R : Nat → σ → τ → Prop) (level : Nat) (x : Reply γ σ)
    (y : Reply γ τ) : Prop where
  signal : x.signal.map Signal.upward = y.signal.map Signal.upward
  context : x.context = y.context
  state : R (levelLeft level x.signal) x.state y.state

/-- Two visitors agree, as long as their states are related at the number of nodes that are
open. Relation at level 0 is what remains of it after the walk. -/
structure Lockstep (v : Visitor γ σ) (w : Visitor γ τ) (R : Nat → σ → τ → Prop) : Prop where
  ended : ∀ level s t, R level s t → R 0 s t
  enter : ∀ n (position : Position) c s t, R position.ancestors.length s t →
    (v.enter n position c s).EnterAlike R position.ancestors.length (w.enter n position c t)
  leave : ∀ n (position : Position) c s t, R (position.ancestors.length + 1) s t →
    (v.leave n position c s).LeaveAlike R position.ancestors.length (w.leave n position c t)

/-- The level of a walk that is over is 0. -/
def levelAfter {α : Type} (level : Nat) (outcome : Except Error α) (stopDepth : Option Nat) :
    Nat :=
  match outcome, stopDepth with
  | .ok _, none => level
  | _, _ => 0

/-- Answers of walks that agree. -/
structure Answer.Alike (R : Nat → σ → τ → Prop) (level : Nat) (x : Answer γ σ)
    (y : Answer γ τ) : Prop where
  outcome : x.outcome = y.outcome
  stopDepth : x.stopDepth = y.stopDepth
  context : x.context = y.context
  state : R (levelAfter level x.outcome x.stopDepth) x.state y.state

structure Passage.Alike (R : Nat → σ → τ → Prop) (level : Nat) (p : Passage γ σ)
    (q : Passage γ τ) : Prop where
  entries : p.entries = q.entries
  edited : p.edited = q.edited
  stopDepth : p.stopDepth = q.stopDepth
  context : p.context = q.context
  state : R (levelAfter level p.entries p.stopDepth) p.state q.state

variable {v : Visitor γ σ} {w : Visitor γ τ} {R : Nat → σ → τ → Prop}

theorem Passage.Alike.after {level : Nat} {p : Passage γ σ} {q : Passage γ τ}
    (h : p.Alike R level q) (child : Node) (fate : Fate) :
    (p.after child fate).Alike R level (q.after child fate) where
  entries := by simp only [Passage.after, h.entries]
  edited := by simp only [Passage.after, h.edited]
  stopDepth := h.stopDepth
  context := h.context
  state := by
    have hlevel : levelAfter level (p.after child fate).entries (p.after child fate).stopDepth =
        levelAfter level p.entries p.stopDepth := by
      simp only [Passage.after]
      cases p.entries <;> cases p.stopDepth <;> rfl
    rw [hlevel]
    exact h.state

/-- The walks of two visitors down to a depth agree. -/
def WalksAlike (v : Visitor γ σ) (w : Visitor γ τ) (R : Nat → σ → τ → Prop) (depth : Nat) :
    Prop :=
  ∀ n (position : Position) c s t, R position.ancestors.length s t →
    Option.Rel (Answer.Alike R position.ancestors.length) (walk v depth n position c s)
      (walk w depth n position c t)

theorem walkChildren_alike {depth : Nat} (ih : WalksAlike v w R depth) (parent : Node)
    (position : Position) :
    ∀ (children : List Child) (c : γ) (s : σ) (t : τ), R (position.ancestors.length + 1) s t →
      Option.Rel (Passage.Alike R (position.ancestors.length + 1))
        (walkChildren (walk v depth) parent position children c s)
        (walkChildren (walk w depth) parent position children c t) := by
  intro children
  induction children with
  | nil =>
    intro c s t h
    exact .some ⟨rfl, rfl, rfl, rfl, h⟩
  | cons child children ihc =>
    intro c s t h
    have hfirst := ih child.node (position.child parent child.key) c s t
      (by rwa [Position.length_child])
    rw [Position.length_child] at hfirst
    simp only [walkChildren, Option.bind_eq_bind]
    refine rel_bind hfirst ?_
    rintro ⟨outcome, stopDepth, c, s⟩ ⟨_, _, _, t⟩ ⟨rfl, rfl, rfl, hstate⟩
    cases outcome with
    | error e => exact .some ⟨rfl, rfl, rfl, rfl, hstate⟩
    | ok fate =>
      cases stopDepth with
      | some d => exact .some ⟨rfl, rfl, rfl, rfl, hstate⟩
      | none =>
        refine rel_bind (ihc c s t hstate) ?_
        exact fun p q h => .some (h.after child.node fate)

theorem leaveNode_alike (h : Lockstep v w R) (held n : Node) (fate : Fate)
    (position : Position) (c : γ) {s : σ} {t : τ} (hst : R (position.ancestors.length + 1) s t) :
    (leaveNode v held n fate position c s).Alike R position.ancestors.length
      (leaveNode w held n fate position c t) := by
  obtain ⟨hsignal, hcontext, hstate⟩ := h.leave ((fate.node? n).getD n) position c s t hst
  cases hx : (v.leave ((fate.node? n).getD n) position c s).signal with
  | error e =>
    cases hy : (w.leave ((fate.node? n).getD n) position c t).signal with
    | error e' =>
      rw [hx, hy] at hsignal
      cases hsignal
      rw [hx] at hstate
      rw [leaveNode_error rfl hx, leaveNode_error rfl hy]
      exact ⟨rfl, rfl, hcontext, hstate⟩
    | ok signal' => rw [hx, hy] at hsignal; cases hsignal
  | ok signal =>
    cases hy : (w.leave ((fate.node? n).getD n) position c t).signal with
    | error e' => rw [hx, hy] at hsignal; cases hsignal
    | ok signal' =>
      rw [hx, hy] at hsignal
      have hupward : signal.upward = signal'.upward := Except.ok.inj hsignal
      rw [hx] at hstate
      rw [leaveNode_ok rfl hx, leaveNode_ok rfl hy]
      have hstop : signal = .stop ↔ signal' = .stop := by
        rw [← Signal.upward_eq_stop, hupward, Signal.upward_eq_stop]
      refine ⟨?_, ?_, hcontext, ?_⟩
      · rw [← Signal.closing_upward, hupward, Signal.closing_upward]
      · simp only [hstop]
      · cases signal <;> exact hstate

theorem conclude_alike (h : Lockstep v w R) (held n : Node) (changed : Bool)
    (position : Position) {p : Passage γ σ} {q : Passage γ τ}
    (hpq : p.Alike R (position.ancestors.length + 1) q) :
    (p.conclude v held n changed position).Alike R position.ancestors.length
      (q.conclude w held n changed position) := by
  obtain ⟨entries, edited, stopDepth, c, s⟩ := p
  obtain ⟨entries', edited', stopDepth', c', t⟩ := q
  obtain ⟨rfl, rfl, rfl, rfl, hstate⟩ := hpq
  simp only [Passage.conclude]
  cases entries with
  | error e => exact ⟨rfl, rfl, rfl, hstate⟩
  | ok entries =>
    cases hclose : closeNode n changed edited entries with
    | error e =>
      simp only [hclose]
      cases stopDepth with
      | none => exact ⟨rfl, rfl, rfl, h.ended _ _ _ hstate⟩
      | some d => exact ⟨rfl, rfl, rfl, hstate⟩
    | ok fate =>
      simp only [hclose]
      cases stopDepth with
      | none => exact leaveNode_alike h held n fate position c hstate
      | some d => exact ⟨rfl, rfl, rfl, hstate⟩

theorem walk_alike (h : Lockstep v w R) (depth : Nat) : WalksAlike v w R depth := by
  induction depth with
  | zero =>
    intro n position c s t _
    exact .none
  | succ depth ih =>
    intro n position c s t hst
    have henter := h.enter n position c s t hst
    generalize hx : v.enter n position c s = x at henter
    generalize hy : w.enter n position c t = y at henter
    obtain ⟨signal, c', s'⟩ := x
    obtain ⟨signal', c'', t'⟩ := y
    obtain ⟨rfl, rfl, hstate⟩ := henter
    cases signal with
    | error e =>
      rw [walk_error hx rfl, walk_error hy rfl]
      exact .some ⟨rfl, rfl, rfl, hstate⟩
    | ok signal =>
      cases hopening : signal.opening n with
      | deleted =>
        rw [walk_deleted hx rfl hopening, walk_deleted hy rfl hopening]
        rw [levelEntered_deleted _ hopening] at hstate
        exact .some ⟨rfl, rfl, rfl, hstate⟩
      | stopped =>
        rw [walk_stopped hx rfl hopening, walk_stopped hy rfl hopening]
        rw [levelEntered_stopped _ hopening] at hstate
        exact .some ⟨rfl, rfl, rfl, hstate⟩
      | descend m changed children =>
        rw [walk_descend hx rfl hopening, walk_descend hy rfl hopening]
        rw [levelEntered_descend _ hopening] at hstate
        refine rel_map (walkChildren_alike ih m position children c' s' t' hstate) ?_
        exact fun p q hpq => conclude_alike h n m changed position hpq

/-- A visitor may be replaced by one that does the same wherever the states are related. -/
theorem Lockstep.congr_right (h : Lockstep v w R) (w' : Visitor γ τ)
    (henter : ∀ n (position : Position) c s t, R position.ancestors.length s t →
      w'.enter n position c t = w.enter n position c t)
    (hleave : ∀ n (position : Position) c s t, R (position.ancestors.length + 1) s t →
      w'.leave n position c t = w.leave n position c t) : Lockstep v w' R where
  ended := h.ended
  enter := by
    intro n position c s t hst
    rw [henter n position c s t hst]
    exact h.enter n position c s t hst
  leave := by
    intro n position c s t hst
    rw [hleave n position c s t hst]
    exact h.leave n position c s t hst

/-- What is related before a walk is related after it, and the walks end alike. -/
theorem Lockstep.endAlike (h : Lockstep v w R) (root : Node) (c : γ) {s : σ} {t : τ}
    (hst : R 0 s t) : v.EndAlike (Answer.Alike R 0) root c s w c t := by
  have hwalks := fun depth => walk_alike h depth root .root c s t hst
  constructor
  · intro x hx
    obtain ⟨depth, hx⟩ := Visitor.ends_iff.mp hx
    obtain ⟨y, hy, hxy⟩ := rel_some_left (hx ▸ hwalks depth)
    exact ⟨y, Visitor.ends_iff.mpr ⟨depth, hy⟩, hxy⟩
  · intro y hy
    obtain ⟨depth, hy⟩ := Visitor.ends_iff.mp hy
    obtain ⟨x, hx, hxy⟩ := rel_some_right (hy ▸ hwalks depth)
    exact ⟨x, Visitor.ends_iff.mpr ⟨depth, hx⟩, hxy⟩

end Lockstep
end QueryDoc
