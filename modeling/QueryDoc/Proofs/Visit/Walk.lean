import QueryDoc.Visit.Walk

/-! Walks in parts. A walk below a node is a walk of its children and what is concluded
from it: an error and a stop go on to the node's ancestors, and otherwise the node is
left. -/
namespace QueryDoc

theorem Position.length_child (position : Position) (parent : Node) (key : List Segment) :
    (position.child parent key).ancestors.length = position.ancestors.length + 1 :=
  List.length_append

theorem Position.ancestors_child_ne (position : Position) (parent : Node)
    (key : List Segment) : (position.child parent key).ancestors ≠ [] :=
  List.append_ne_nil_of_right_ne_nil _ (List.cons_ne_nil _ _)

variable {γ σ : Type} {v : Visitor γ σ}
variable {w : Node → Position → γ → σ → Option (Answer γ σ)}

/-- The answer for a node of which it is known what became of it below, from the visitor
that leaves it. `held` is the node as it was entered. -/
def leaveNode (v : Visitor γ σ) (held n : Node) (fate : Fate) (position : Position) (context : γ)
    (state : σ) : Answer γ σ :=
  let reply := v.leave ((fate.node? n).getD n) position context state
  match reply.signal with
  | .error e => ⟨.error e, none, reply.context, reply.state⟩
  | .ok signal =>
    let stopDepth := if signal = .stop then some position.ancestors.length else none
    ⟨.ok (signal.closing held fate), stopDepth, reply.context, reply.state⟩

section Leave
variable {held n : Node} {fate : Fate} {position : Position} {context : γ} {state : σ}
variable {reply : Reply γ σ}

theorem leaveNode_error {e : Error}
    (hreply : v.leave ((fate.node? n).getD n) position context state = reply)
    (h : reply.signal = .error e) :
    leaveNode v held n fate position context state =
      ⟨.error e, none, reply.context, reply.state⟩ := by
  simp only [leaveNode, hreply, h]

theorem leaveNode_ok {signal : Signal}
    (hreply : v.leave ((fate.node? n).getD n) position context state = reply)
    (h : reply.signal = .ok signal) :
    leaveNode v held n fate position context state =
      ⟨.ok (signal.closing held fate),
        if signal = .stop then some position.ancestors.length else none,
        reply.context, reply.state⟩ := by
  simp only [leaveNode, hreply, h]

end Leave

namespace Passage

/-- The answer for a node from what became of its children. -/
def conclude (v : Visitor γ σ) (held n : Node) (changed : Bool) (position : Position)
    (p : Passage γ σ) : Answer γ σ :=
  match p.entries with
  | .error e => ⟨.error e, p.stopDepth, p.context, p.state⟩
  | .ok entries =>
    match closeNode n changed p.edited entries with
    | .error e => ⟨.error e, p.stopDepth, p.context, p.state⟩
    | .ok fate =>
      match p.stopDepth with
      | some d => ⟨.ok fate, some d, p.context, p.state⟩
      | none => leaveNode v held n fate position p.context p.state

/-- Puts what became of a first child before the others. -/
def after (p : Passage γ σ) (child : Node) (fate : Fate) : Passage γ σ :=
  { p with
    entries := p.entries.map (fate.node? child :: ·)
    edited := fate.isEdit || p.edited }

section Conclude
variable {p : Passage γ σ} {held n : Node} {changed : Bool} {position : Position}

theorem conclude_error {e : Error} (h : p.entries = .error e) :
    p.conclude v held n changed position = ⟨.error e, p.stopDepth, p.context, p.state⟩ := by
  simp only [conclude, h]

theorem conclude_refused {entries : List (Option Node)} {e : Error} (h : p.entries = .ok entries)
    (hclose : closeNode n changed p.edited entries = .error e) :
    p.conclude v held n changed position = ⟨.error e, p.stopDepth, p.context, p.state⟩ := by
  simp only [conclude, h, hclose]

theorem conclude_leave {entries : List (Option Node)} {fate : Fate} (h : p.entries = .ok entries)
    (hclose : closeNode n changed p.edited entries = .ok fate) (hstop : p.stopDepth = none) :
    p.conclude v held n changed position = leaveNode v held n fate position p.context p.state := by
  simp only [conclude, h, hclose, hstop]

end Conclude

end Passage

theorem walkBelow_eq (held n : Node) (changed : Bool) (children : List Child) (position : Position)
    (context : γ) (state : σ) :
    walkBelow v w held n changed children position context state =
      (walkChildren w n position children context state).map
        (·.conclude v held n changed position) := by
  simp only [walkBelow, Option.bind_eq_bind]
  cases walkChildren w n position children context state with
  | none => rfl
  | some p =>
    obtain ⟨outcome, edited, stopDepth, context, state⟩ := p
    simp only [Option.bind_some, Option.map_some, Passage.conclude]
    cases outcome with
    | error e => rfl
    | ok entries =>
      have hbind : (Except.ok entries >>= closeNode n changed edited) =
          closeNode n changed edited entries := rfl
      rw [hbind]
      cases hclose : closeNode n changed edited entries with
      | error e => simp only [hclose]
      | ok fate =>
        simp only [hclose]
        cases stopDepth with
        | some d => rfl
        | none =>
          simp only [Option.isSome_none, Bool.false_eq_true, if_false, leaveNode]
          cases (v.leave ((fate.node? n).getD n) position context state).signal with
          | error e => rfl
          | ok signal => rfl

section Children
variable (parent : Node) (position : Position) {c : Child} {context : γ} {state : σ}
variable {first : Answer γ σ} {fate : Fate}

/-- After a child that failed, the others are left alone. -/
theorem walkChildren_error {e : Error}
    (h : w c.node (position.child parent c.key) context state = some first)
    (houtcome : first.outcome = .error e) (cs : List Child) :
    walkChildren w parent position (c :: cs) context state =
      some ⟨.error e, true, first.stopDepth, first.context, first.state⟩ := by
  simp only [walkChildren, h, houtcome, Option.bind_eq_bind, Option.bind_some]

/-- After a child where the walk stopped, the others stay as they are. -/
theorem walkChildren_stop {d : Nat}
    (h : w c.node (position.child parent c.key) context state = some first)
    (houtcome : first.outcome = .ok fate) (hstop : first.stopDepth = some d)
    (cs : List Child) :
    walkChildren w parent position (c :: cs) context state =
      some ⟨.ok (fate.node? c.node :: cs.map (some ·.node)), fate.isEdit, some d,
        first.context, first.state⟩ := by
  simp only [walkChildren, h, houtcome, hstop, Option.bind_eq_bind, Option.bind_some,
    Option.isSome_some, if_true]

/-- After a child that neither failed nor stopped the walk, the others follow. -/
theorem walkChildren_next
    (h : w c.node (position.child parent c.key) context state = some first)
    (houtcome : first.outcome = .ok fate) (hstop : first.stopDepth = none)
    (cs : List Child) :
    walkChildren w parent position (c :: cs) context state =
      (walkChildren w parent position cs first.context first.state).map
        (·.after c.node fate) := by
  simp only [walkChildren, h, houtcome, hstop, Option.bind_eq_bind, Option.bind_some,
    Option.isSome_none, Bool.false_eq_true, if_false]
  cases walkChildren w parent position cs first.context first.state <;> rfl

/-- How a walk over a child and others comes to its end: the child fails, it stops the walk, or
the others are walked after it. -/
inductive Proceeds (w : Node → Position → γ → σ → Option (Answer γ σ)) (parent : Node)
    (position : Position) (c : Child) (cs : List Child) (context : γ) (state : σ) :
    Passage γ σ → Prop where
  | error {first : Answer γ σ} {e : Error}
      (hfirst : w c.node (position.child parent c.key) context state = some first)
      (houtcome : first.outcome = .error e) :
      Proceeds w parent position c cs context state
        ⟨.error e, true, first.stopDepth, first.context, first.state⟩
  | stop {first : Answer γ σ} {fate : Fate} {d : Nat}
      (hfirst : w c.node (position.child parent c.key) context state = some first)
      (houtcome : first.outcome = .ok fate) (hstop : first.stopDepth = some d) :
      Proceeds w parent position c cs context state
        ⟨.ok (fate.node? c.node :: cs.map (some ·.node)), fate.isEdit, some d,
          first.context, first.state⟩
  | next {first : Answer γ σ} {fate : Fate} {others : Passage γ σ}
      (hfirst : w c.node (position.child parent c.key) context state = some first)
      (houtcome : first.outcome = .ok fate) (hstop : first.stopDepth = none)
      (hothers : walkChildren w parent position cs first.context first.state = some others) :
      Proceeds w parent position c cs context state (others.after c.node fate)

variable {parent position} in
theorem walkChildren_proceeds {cs : List Child} {p : Passage γ σ}
    (h : walkChildren w parent position (c :: cs) context state = some p) :
    Proceeds w parent position c cs context state p := by
  cases hfirst : w c.node (position.child parent c.key) context state with
  | none =>
    simp only [walkChildren, hfirst] at h
    cases h
  | some first =>
    cases houtcome : first.outcome with
    | error e =>
      rw [walkChildren_error parent position hfirst houtcome] at h
      cases h
      exact .error hfirst houtcome
    | ok fate =>
      cases hstop : first.stopDepth with
      | some d =>
        rw [walkChildren_stop parent position hfirst houtcome hstop] at h
        cases h
        exact .stop hfirst houtcome hstop
      | none =>
        rw [walkChildren_next parent position hfirst houtcome hstop, Option.map_eq_some_iff] at h
        obtain ⟨others, hothers, rfl⟩ := h
        exact .next hfirst houtcome hstop hothers

end Children

section Enter
variable {depth : Nat} {n : Node} {position : Position} {context : γ} {state : σ}
variable {reply : Reply γ σ}

theorem walk_error {e : Error} (hreply : v.enter n position context state = reply)
    (h : reply.signal = .error e) :
    walk v (depth + 1) n position context state =
      some ⟨.error e, none, reply.context, reply.state⟩ := by
  simp only [walk, hreply, h]

theorem walk_deleted {signal : Signal} (hreply : v.enter n position context state = reply)
    (h : reply.signal = .ok signal) (hopening : signal.opening n = .deleted) :
    walk v (depth + 1) n position context state =
      some ⟨.ok .deleted, none, reply.context, reply.state⟩ := by
  simp only [walk, hreply, h, hopening]

theorem walk_stopped {signal : Signal} (hreply : v.enter n position context state = reply)
    (h : reply.signal = .ok signal) (hopening : signal.opening n = .stopped) :
    walk v (depth + 1) n position context state =
      some ⟨.ok .kept, some position.ancestors.length, reply.context, reply.state⟩ := by
  simp only [walk, hreply, h, hopening]

/-- A node that stays is walked below. -/
theorem walk_descend {signal : Signal} {m : Node} {changed : Bool} {children : List Child}
    (hreply : v.enter n position context state = reply) (h : reply.signal = .ok signal)
    (hopening : signal.opening n = .descend m changed children) :
    walk v (depth + 1) n position context state =
      (walkChildren (walk v depth) m position children reply.context reply.state).map
        (·.conclude v n m changed position) := by
  simp only [walk, hreply, h, hopening, walkBelow_eq]

end Enter
end QueryDoc
