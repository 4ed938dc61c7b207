import QueryDoc.Proofs.Visit.Walk
import QueryDoc.Visit.Machine

/-! The walk with open nodes on a stack does what the walk by recursion does. The stack
below a node stands for what the recursion has still to do after it has the answer for
that node; `resume` says how the stack goes on with an answer. -/
namespace QueryDoc

/-- The position of the children of a node, without their key. -/
def Position.inside (p : Position) (n : Node) : Position := ⟨p.path, p.ancestors ++ [n]⟩

theorem Path.drop_extend (p : Path) (key : List Segment) : (p.extend key).drop key.length = p := by
  simp [Path.extend, Path.drop]

namespace Frame

/-- Takes up what became of all the children that wait. -/
def absorb (f : Frame) (entries : List (Option Node)) (edited : Bool) : Frame :=
  { f with pending := [], entries := entries.reverse ++ f.entries, edited := f.edited || edited }

theorem absorb_nil {f : Frame} (h : f.pending = []) : f.absorb [] false = f := by
  obtain ⟨held, node, changed, keyLength, pending, entries, edited⟩ := f
  subst h
  simp [absorb]

/-- One child first and then the others is all of them. -/
theorem absorb_deliver (f : Frame) (cs : List Child) (n : Node) (fate : Fate)
    (entries : List (Option Node)) (edited : Bool) :
    ({ f with pending := cs }.deliver n fate).absorb entries edited =
      f.absorb (fate.node? n :: entries) (fate.isEdit || edited) := by
  simp [absorb, deliver, Bool.or_assoc]

/-- Children that still wait when a node is closed stay as they are. -/
theorem finish_deliver (f : Frame) (cs : List Child) (n : Node) (fate : Fate) :
    ({ f with pending := cs }.deliver n fate).finish =
      (f.absorb (fate.node? n :: cs.map (some ·.node)) fate.isEdit).finish := by
  simp [absorb, deliver, finish]

theorem finish_absorb (held n : Node) (changed : Bool) (keyLength : Nat) (children : List Child)
    (entries : List (Option Node)) (edited : Bool) :
    ((⟨held, n, changed, keyLength, children, [], false⟩ : Frame).absorb entries edited).finish =
      closeNode n changed edited entries := by
  simp [absorb, finish]

end Frame

namespace Machine

variable {γ σ : Type} {v : Visitor γ σ}

/-! ## Runs -/

/-- A status is reached from another one by steps of the walk. -/
inductive Leads (v : Visitor γ σ) : Status γ σ → Status γ σ → Prop where
  | refl (s : Status γ σ) : Leads v s s
  | step {m : Machine γ σ} {t : Status γ σ} : Leads v (m.step v) t → Leads v (.running m) t

theorem Leads.of_eq {s t : Status γ σ} (h : s = t) : Leads v s t := by
  subst h
  exact .refl s

theorem Leads.trans {s t u : Status γ σ} (hst : Leads v s t) (htu : Leads v t u) :
    Leads v s u := by
  induction hst with
  | refl => exact htu
  | step _ ih => exact .step (ih htu)

theorem run_ended (steps : Nat) (a : Answer γ σ) : run v steps (.ended a) = some a := by
  cases steps <;> rfl

theorem Leads.run_ended {s t : Status γ σ} {a : Answer γ σ} (h : Leads v s t)
    (ht : t = .ended a) : ∃ steps, run v steps s = some a := by
  induction h with
  | refl s =>
    subst ht
    exact ⟨0, rfl⟩
  | step _ ih =>
    obtain ⟨steps, hrun⟩ := ih ht
    exact ⟨steps + 1, hrun⟩

/-- A run that ends passes through all that its start leads to. -/
theorem Leads.run_rest {s t : Status γ σ} (h : Leads v s t) :
    ∀ {steps : Nat} {a : Answer γ σ}, run v steps s = some a →
      ∃ rest, rest ≤ steps ∧ run v rest t = some a := by
  induction h with
  | refl s =>
    intro steps a hrun
    exact ⟨steps, Nat.le_refl _, hrun⟩
  | step _ ih =>
    intro steps a hrun
    cases steps with
    | zero => cases hrun
    | succ steps =>
      obtain ⟨rest, hrest, ht⟩ := ih hrun
      exact ⟨rest, Nat.le_succ_of_le hrest, ht⟩

/-! ## What the stack does with an answer -/

/-- How the open nodes go on with the answer for a child of the innermost one. -/
def resume (frames : List Frame) (position : Position) (n : Node) (a : Answer γ σ) :
    Status γ σ :=
  match a.outcome with
  | .error _ => .ended a
  | .ok fate =>
    match a.stopDepth, frames with
    | some _, _ => .ended { a with outcome := settle frames n fate }
    | none, [] => .ended a
    | none, f :: rest => .running ⟨f.deliver n fate :: rest, position, a.context, a.state⟩

theorem resume_root (position : Position) (n : Node) (a : Answer γ σ) :
    resume [] position n a = .ended a := by
  obtain ⟨outcome, stopDepth, context, state⟩ := a
  cases outcome <;> cases stopDepth <;> rfl

/-- How an open node goes on with the result of walking the children that wait. -/
def proceed (f : Frame) (rest : List Frame) (position : Position) (p : Passage γ σ) :
    Status γ σ :=
  match p.entries with
  | .error e => .ended ⟨.error e, p.stopDepth, p.context, p.state⟩
  | .ok entries =>
    let full := f.absorb entries p.edited
    match p.stopDepth with
    | some d => .ended ⟨full.finish >>= settle rest f.held, some d, p.context, p.state⟩
    | none => .running ⟨full :: rest, position, p.context, p.state⟩

/-- A child that is taken up at once is the first one of all that wait. -/
theorem proceed_deliver (f : Frame) (cs : List Child) (n : Node) (fate : Fate)
    (rest : List Frame) (position : Position) (p : Passage γ σ) :
    proceed ({ f with pending := cs }.deliver n fate) rest position p =
      proceed f rest position (p.after n fate) := by
  obtain ⟨outcome, edited, stopDepth, context, state⟩ := p
  cases outcome with
  | error e => rfl
  | ok entries =>
    simp only [proceed, Passage.after, Frame.absorb_deliver, Except.map]
    rfl

/-- A node that is left on the stack has the answer that it has in the recursion. -/
theorem leave_eq_resume (f : Frame) (key : List Segment) (rest : List Frame)
    (position : Position) (context : γ) (state : σ) {fate : Fate} (hfinish : f.finish = .ok fate)
    (hkey : f.keyLength = key.length) (hlength : position.ancestors.length = rest.length) :
    leave v f rest ⟨position.path.extend key, position.ancestors ++ [f.node]⟩ context state =
      resume rest position f.held
        (leaveNode v f.held f.node fate ⟨position.path.extend key, position.ancestors⟩
          context state) := by
  simp only [leave, hfinish, List.dropLast_concat, leaveNode, hkey, Path.drop_extend, hlength]
  cases (v.leave ((fate.node? f.node).getD f.node)
      ⟨position.path.extend key, position.ancestors⟩ context state).signal with
  | error e => rfl
  | ok signal =>
    by_cases hstop : signal = .stop
    · simp only [if_pos hstop]
      rfl
    · simp only [if_neg hstop]
      cases rest <;> rfl

/-! ## The answers of the recursion, on the stack -/

/-- What a walk for single nodes answers is what the stack goes on with. -/
def Follows (v : Visitor γ σ) (w : Node → Position → γ → σ → Option (Answer γ σ)) : Prop :=
  ∀ n key frames (position : Position) context state a,
    position.ancestors.length = frames.length →
    w n ⟨position.path.extend key, position.ancestors⟩ context state = some a →
    Leads v (enter v n key frames position context state) (resume frames position n a)

variable {w : Node → Position → γ → σ → Option (Answer γ σ)}

theorem leads_walkChildren (hw : Follows v w) (here : Position) (rest : List Frame)
    (hlength : here.ancestors.length = rest.length) :
    ∀ (children : List Child) (f : Frame) (context : γ) (state : σ) (p : Passage γ σ),
      f.pending = children →
      walkChildren w f.node here children context state = some p →
      Leads v (.running ⟨f :: rest, here.inside f.node, context, state⟩)
        (proceed f rest (here.inside f.node) p) := by
  intro children
  induction children with
  | nil =>
    intro f context state p hf h
    cases h
    simp only [proceed, Frame.absorb_nil hf]
    exact .refl _
  | cons c cs ih =>
    intro f context state p hf h
    apply Leads.step
    simp only [Machine.step, hf]
    have hfollows := fun first => hw c.node c.key ({ f with pending := cs } :: rest)
      (here.inside f.node) context state first (by simp [Position.inside, hlength])
    cases walkChildren_proceeds h with
    | @error first e hfirst houtcome =>
      refine (hfollows first hfirst).trans ?_
      obtain ⟨outcome, stopDepth, context, state⟩ := first
      cases houtcome
      exact .refl _
    | @stop first fate d hfirst houtcome hstop =>
      refine (hfollows first hfirst).trans ?_
      -- The open nodes are closed at once, with the children that wait.
      simp only [resume, houtcome, hstop, settle, proceed, Frame.finish_deliver]
      exact .refl _
    | @next first fate others hfirst houtcome hstop hothers =>
      refine (hfollows first hfirst).trans ?_
      rw [← proceed_deliver f cs]
      simp only [resume, houtcome, hstop]
      exact ih ({ f with pending := cs }.deliver c.node fate) first.context first.state
        others rfl hothers

/-- The innermost open node, with what became of its children, has the answer that the
recursion concludes. -/
theorem leads_conclude (n m : Node) (changed : Bool) (children : List Child)
    (key : List Segment) (rest : List Frame) (position : Position) (p : Passage γ σ)
    (hlength : position.ancestors.length = rest.length) :
    Leads v
      (proceed ⟨n, m, changed, key.length, children, [], false⟩ rest
        ⟨position.path.extend key, position.ancestors ++ [m]⟩ p)
      (resume rest position n
        (p.conclude v n m changed ⟨position.path.extend key, position.ancestors⟩)) := by
  obtain ⟨outcome, edited, stopDepth, context, state⟩ := p
  cases outcome with
  | error e => exact .refl _
  | ok entries =>
    have hfinish := Frame.finish_absorb n m changed key.length children entries edited
    cases hclose : closeNode m changed edited entries with
    | error e =>
      rw [hclose] at hfinish
      simp only [Passage.conclude, hclose, proceed]
      cases stopDepth with
      | some d =>
        simp only [hfinish]
        exact .refl _
      | none =>
        -- That the node cannot be rebuilt is found out on leaving it.
        refine .step ?_
        show Leads v (leave v _ rest _ context state) _
        simp only [leave, hfinish]
        exact .refl _
    | ok fate =>
      rw [hclose] at hfinish
      simp only [Passage.conclude, hclose, proceed]
      cases stopDepth with
      | some d =>
        simp only [hfinish]
        exact .refl _
      | none =>
        refine .step ?_
        exact .of_eq (leave_eq_resume _ key rest position context state hfinish rfl hlength)

/-- A node that is entered has its answer at once, or it is opened and its children are
walked, on the stack as in the recursion. -/
theorem enter_cases (v : Visitor γ σ) (n : Node) (key : List Segment) (frames : List Frame)
    (position : Position) (context : γ) (state : σ)
    (hlength : position.ancestors.length = frames.length) :
    (∃ a, enter v n key frames position context state = resume frames position n a ∧
      ∀ depth, walk v (depth + 1) n ⟨position.path.extend key, position.ancestors⟩ context
        state = some a) ∨
    (∃ m changed children context' state',
      enter v n key frames position context state =
        .running ⟨⟨n, m, changed, key.length, children, [], false⟩ :: frames,
          ⟨position.path.extend key, position.ancestors ++ [m]⟩, context', state'⟩ ∧
      ∀ depth, walk v (depth + 1) n ⟨position.path.extend key, position.ancestors⟩ context
        state = walkBelow v (walk v depth) n m changed children
          ⟨position.path.extend key, position.ancestors⟩ context' state') := by
  simp only [enter, walk]
  generalize v.enter n ⟨position.path.extend key, position.ancestors⟩ context state = reply
  obtain ⟨outcome, context', state'⟩ := reply
  cases outcome with
  | error e =>
    left
    exact ⟨⟨.error e, none, context', state'⟩, rfl, fun _ => rfl⟩
  | ok signal =>
    cases hopening : signal.opening n with
    | deleted =>
      left
      refine ⟨⟨.ok .deleted, none, context', state'⟩, ?_, fun _ => ?_⟩
      · simp only [hopening]
        cases frames <;> rfl
      · simp only [hopening]
    | stopped =>
      left
      refine ⟨⟨.ok .kept, some position.ancestors.length, context', state'⟩, ?_, fun _ => ?_⟩
      · simp only [hopening, hlength]
        rfl
      · simp only [hopening]
    | descend m changed children =>
      right
      refine ⟨m, changed, children, context', state', ?_, fun _ => ?_⟩
      · simp only [hopening]
      · simp only [hopening]

/-- Whatever the recursion answers, the stack goes on with. -/
theorem leads_walk (v : Visitor γ σ) (depth : Nat) : Follows v (walk v depth) := by
  induction depth with
  | zero =>
    intro n key frames position context state a _ h
    cases h
  | succ depth ih =>
    intro n key frames position context state a hlength h
    rcases enter_cases v n key frames position context state hlength with
      ⟨b, henter, hwalk⟩ | ⟨m, changed, children, context', state', henter, hwalk⟩
    · rw [hwalk] at h
      cases h
      exact .of_eq henter
    · rw [hwalk, walkBelow_eq, Option.map_eq_some_iff] at h
      obtain ⟨p, hp, rfl⟩ := h
      rw [henter]
      -- First the children, then what is concluded from them.
      have hchildren := leads_walkChildren ih ⟨position.path.extend key, position.ancestors⟩
        frames hlength children ⟨n, m, changed, key.length, children, [], false⟩ context' state'
        p rfl hp
      exact hchildren.trans (leads_conclude n m changed children key frames position p hlength)

/-! ## Where the recursion has no answer -/

/-- Where a walk for single nodes has no answer, the stack does not come to an end in
fewer steps than a bound. -/
def Silent (v : Visitor γ σ) (w : Node → Position → γ → σ → Option (Answer γ σ))
    (bound : Nat) : Prop :=
  ∀ n key frames (position : Position) context state,
    position.ancestors.length = frames.length →
    w n ⟨position.path.extend key, position.ancestors⟩ context state = none →
    ∀ steps, steps < bound →
      run v steps (enter v n key frames position context state) = none

theorem run_walkChildren_none {bound : Nat} (hw : Follows v w) (hs : Silent v w bound)
    (here : Position) (rest : List Frame) (hlength : here.ancestors.length = rest.length) :
    ∀ (children : List Child) (f : Frame) (context : γ) (state : σ),
      f.pending = children →
      walkChildren w f.node here children context state = none →
      ∀ steps, steps ≤ bound →
        run v steps (.running ⟨f :: rest, here.inside f.node, context, state⟩) = none := by
  intro children
  induction children with
  | nil =>
    intro f context state _ h
    cases h
  | cons c cs ih =>
    intro f context state hf h steps hsteps
    cases steps with
    | zero => rfl
    | succ steps =>
      have hin : (here.inside f.node).ancestors.length =
          ({ f with pending := cs } :: rest).length := by
        simp [Position.inside, hlength]
      simp only [run, Machine.step, hf]
      cases hfirst : w c.node (here.child f.node c.key) context state with
      | none => exact hs c.node c.key _ _ context state hin hfirst steps hsteps
      | some first =>
        have hleads := hw c.node c.key _ _ context state first hin hfirst
        cases houtcome : first.outcome with
        | error e =>
          rw [walkChildren_error f.node here hfirst houtcome cs] at h
          cases h
        | ok fate =>
          cases hstop : first.stopDepth with
          | some d =>
            rw [walkChildren_stop f.node here hfirst houtcome hstop cs] at h
            cases h
          | none =>
            rw [walkChildren_next f.node here hfirst houtcome hstop, Option.map_eq_none_iff] at h
            -- A run to the end would run on from the answer for the first child.
            cases hrun : run v steps (enter v c.node c.key ({ f with pending := cs } :: rest)
                (here.inside f.node) context state) with
            | none => rfl
            | some a =>
              obtain ⟨fewer, hfewer, hrest⟩ := hleads.run_rest hrun
              simp only [resume, houtcome, hstop] at hrest
              have hnone := ih ({ f with pending := cs }.deliver c.node fate) first.context
                first.state rfl h fewer (by omega)
              have hne := hrest.symm.trans hnone
              cases hne

/-- Each level that the recursion goes down is a step of the stack. -/
theorem run_walk_none (v : Visitor γ σ) (depth : Nat) : Silent v (walk v depth) depth := by
  induction depth with
  | zero =>
    intro n key frames position context state _ _ steps hsteps
    exact absurd hsteps (Nat.not_lt_zero _)
  | succ depth ih =>
    intro n key frames position context state hlength h steps hsteps
    rcases enter_cases v n key frames position context state hlength with
      ⟨b, _, hwalk⟩ | ⟨m, changed, children, context', state', henter, hwalk⟩
    · rw [hwalk] at h
      cases h
    · rw [hwalk, walkBelow_eq, Option.map_eq_none_iff] at h
      rw [henter]
      exact run_walkChildren_none (leads_walk v depth) ih
        ⟨position.path.extend key, position.ancestors⟩ frames hlength children
        ⟨n, m, changed, key.length, children, [], false⟩ context' state' rfl h steps
        (Nat.le_of_lt_succ hsteps)

end Machine

/-! ## Whole walks -/

variable {γ σ : Type}

theorem leads_of_walk {v : Visitor γ σ} {depth : Nat} {root : Node} {context : γ} {state : σ}
    {a : Answer γ σ} (h : walk v depth root .root context state = some a) :
    Machine.Leads v (Machine.enter v root [] [] .root context state) (.ended a) := by
  have hleads := Machine.leads_walk v depth root [] [] .root context state a rfl h
  rwa [Machine.resume_root] at hleads

/-- A walk with open nodes on a stack ends if and only if the walk by recursion ends,
and with the same answer. -/
theorem visit_iff_walk (v : Visitor γ σ) (root : Node) (context : γ) (state : σ)
    (a : Answer γ σ) :
    (∃ steps, visit steps v root context state = some a) ↔
      ∃ depth, walk v depth root .root context state = some a := by
  constructor
  · intro h
    obtain ⟨steps, hvisit⟩ := h
    cases hwalk : walk v (steps + 1) root .root context state with
    | none =>
      have hnone := Machine.run_walk_none v (steps + 1) root [] [] .root context state rfl hwalk
        steps (Nat.lt_succ_self steps)
      have hne := hvisit.symm.trans hnone
      cases hne
    | some b =>
      obtain ⟨rest, _, hrest⟩ := (leads_of_walk hwalk).run_rest hvisit
      rw [Machine.run_ended] at hrest
      cases hrest
      exact ⟨steps + 1, hwalk⟩
  · intro h
    obtain ⟨depth, hwalk⟩ := h
    exact (leads_of_walk hwalk).run_ended rfl

end QueryDoc
