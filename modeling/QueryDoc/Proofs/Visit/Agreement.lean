import QueryDoc.Proofs.Tree.Forms
import QueryDoc.Proofs.Visit.Team

/-! Visitors that agree: they want the same of two forms of a node, but for the forms of what
they put in its place. A visitor by hooks agrees with itself if it looks at ancestors only in
plain form, since its hooks see nodes in plain form, and pairs of visitors that agree do so as
well. -/
namespace QueryDoc

variable {γ σ τ : Type} {vars : Bool}

/-! ## Positions -/

namespace Position

/-- The position with all ancestors in plain form. -/
def plain (position : Position) : Position :=
  ⟨position.path, position.ancestors.map Node.plain⟩

/-- Whether the parent is a variable, in any form. -/
def belowVariable (position : Position) : Bool :=
  position.parent?.any fun parent => decide (parent.kind = .variable)

theorem plain_child (position : Position) (parent : Node) (key : List Segment) :
    (position.child parent key).plain = position.plain.child parent.plain key := by
  simp only [plain, child, List.map_append, List.map_singleton]

theorem belowVariable_child (position : Position) (parent : Node) (key : List Segment) :
    (position.child parent key).belowVariable = decide (parent.kind = .variable) := by
  simp [belowVariable, parent?, child]

variable {position position' : Position}

theorem child_alike (h : position.plain = position'.plain) {parent parent' : Node}
    (hparent : parent.plain = parent'.plain) (key : List Segment) :
    (position.child parent key).plain = (position'.child parent' key).plain := by
  rw [plain_child, plain_child, h, hparent]

theorem length_alike (h : position.plain = position'.plain) :
    position.ancestors.length = position'.ancestors.length := by
  have hlength := congrArg (·.ancestors.length) h
  simpa only [plain, List.length_map] using hlength

theorem belowVariable_alike (h : position.plain = position'.plain) :
    position.belowVariable = position'.belowVariable := by
  have hplain : ∀ position : Position, position.plain.belowVariable = position.belowVariable := by
    intro position
    simp only [belowVariable, parent?, plain, List.getLast?_map, Option.any_map, Node.kind_plain]
  rw [← hplain, h, hplain]

end Position

/-! ## Visitors that agree -/

/-- Signals for two forms of a node that want the same. To keep a node may then be to put its
other form in its place. -/
inductive Signal.Twins (vars : Bool) (n n' : Node) : Signal → Signal → Prop where
  | same (signal : Signal) : Twins vars n n' signal signal
  | replaced {r r' : Node} (h : r.Twins vars r') :
      Twins vars n n' (.edit (.replace r)) (.edit (.replace r'))
  | keptRight {r : Node} (hne : n ≠ n') (h : r.Twins vars n') :
      Twins vars n n' (.edit (.replace r)) (.edit .keep)
  | keptLeft {r' : Node} (hne : n ≠ n') (h : n.Twins vars r') :
      Twins vars n n' (.edit .keep) (.edit (.replace r'))

theorem Signal.Twins.symm {n n' : Node} {signal signal' : Signal}
    (h : signal.Twins vars n n' signal') : signal'.Twins vars n' n signal := by
  cases h with
  | same => exact .same _
  | replaced h => exact .replaced h.symm
  | keptRight hne h => exact .keptLeft hne.symm h.symm
  | keptLeft hne h => exact .keptRight hne.symm h.symm

/-- Answers to two forms of a node that want the same and leave the same. -/
structure Reply.Twins (vars : Bool) (n n' : Node) (x y : Reply γ σ) : Prop where
  signal : OutcomesAlike (Signal.Twins vars n n') x.signal y.signal
  context : x.context = y.context
  state : x.state = y.state

/-- Two hooks want the same where they see the same but for forms. -/
def Hook.Agrees (vars : Bool) (hook hook' : Hook γ σ) : Prop :=
  ∀ (n n' : Node) (position position' : Position) c s, n.Twins vars n' →
    position.plain = position'.plain →
    Reply.Twins vars n n' (hook n position c s) (hook' n' position' c s)

/-- Two visitors want the same, but for the forms of what they put in the place of nodes. -/
structure Visitor.Agrees (vars : Bool) (v w : Visitor γ σ) : Prop where
  enter : v.enter.Agrees vars w.enter
  leave : v.leave.Agrees vars w.leave

/-- The visitor wants nothing and remembers nothing where it comes to the name of a variable. -/
def Visitor.OverlooksNames (v : Visitor γ σ) : Prop :=
  ∀ phase x (position : Position) c s, position.belowVariable = true →
    v.hook phase (.name x) position c s = ⟨.ok .next, c, s⟩

theorem Hook.Agrees.symm {hook hook' : Hook γ σ} (h : hook.Agrees vars hook') :
    hook'.Agrees vars hook := by
  intro n n' position position' c s hn hposition
  have hreply := h n' n position' position c s hn.symm hposition.symm
  exact ⟨hreply.signal.symm.imp fun _ _ => Signal.Twins.symm, hreply.context.symm,
    hreply.state.symm⟩

theorem Visitor.Agrees.symm {v w : Visitor γ σ} (h : v.Agrees vars w) :
    w.Agrees vars v :=
  ⟨h.enter.symm, h.leave.symm⟩

/-! ## Visitors by hooks -/

/-- Two hooks want the same at a node, at positions that are the same but for forms. -/
def Hook.AgreesAt (vars : Bool) (hook hook' : Hook γ σ) (n : Node) : Prop :=
  ∀ (position position' : Position) c s, position.plain = position'.plain →
    Reply.Twins vars n n (hook n position c s) (hook' n position' c s)

/-- Two sets of hooks want the same. -/
structure Hooks.Agrees (vars : Bool) (h h' : Hooks γ σ) : Prop where
  enterAny : ∀ n, h.enterAny.AgreesAt vars h'.enterAny n
  leaveAny : ∀ n, h.leaveAny.AgreesAt vars h'.leaveAny n
  enterAt : ∀ n, Option.Rel (fun hook hook' => Hook.AgreesAt vars hook hook' n)
    (h.enterAt n.shape) (h'.enterAt n.shape)
  leaveAt : ∀ n, Option.Rel (fun hook hook' => Hook.AgreesAt vars hook hook' n)
    (h.leaveAt n.shape) (h'.leaveAt n.shape)

/-- The signal of a hook that saw the plain form of a node. -/
def Signal.formed (n : Node) : Signal → Signal
  | .edit .keep => if n.isPlain then .edit .keep else .edit (.replace n.plain)
  | signal => signal

theorem Hooks.onPlain_eq (hook : Hook γ σ) (n : Node) (position : Position) (c : γ) (s : σ) :
    onPlain hook n position c s =
      ⟨(hook n.plain position c s).signal.map (Signal.formed n),
        (hook n.plain position c s).context, (hook n.plain position c s).state⟩ := by
  simp only [onPlain]
  generalize hook n.plain position c s = reply
  obtain ⟨signal, c, s⟩ := reply
  cases signal with
  | error e => rfl
  | ok signal =>
    cases signal with
    | edit e =>
      cases e with
      | keep => cases hplain : n.isPlain <;> simp [Signal.formed, Except.map, hplain]
      | replace | restore | delete => rfl
    | next | skip | stop => rfl

theorem Signal.Twins.formed {n n' : Node} {signal signal' : Signal} (hn : n.plain = n'.plain)
    (h : signal.Twins vars n.plain n.plain signal') :
    (signal.formed n).Twins vars n n' (signal'.formed n') := by
  cases h with
  | same =>
    cases signal with
    | next | skip | stop => exact .same _
    | edit e =>
      cases e with
      | replace | restore | delete => exact .same _
      | keep =>
        simp only [Signal.formed]
        cases hplain : n.isPlain with
        | true =>
          have hleft := (Node.isPlain_iff n).mp hplain
          cases hplain' : n'.isPlain with
          | true => exact .same _
          | false =>
            refine .keptLeft (fun heq => ?_) ?_
            · rw [heq, hplain'] at hplain
              cases hplain
            · rw [← hn, hleft]
              exact .same n
        | false =>
          cases hplain' : n'.isPlain with
          | true =>
            refine .keptRight (fun heq => ?_) ?_
            · rw [heq, hplain'] at hplain
              cases hplain
            · rw [hn, (Node.isPlain_iff n').mp hplain']
              exact .same n'
          | false =>
            refine .replaced ?_
            rw [hn]
            exact .same _
  | replaced h => exact .replaced h
  | keptRight hne h => exact absurd rfl hne
  | keptLeft hne h => exact absurd rfl hne

theorem Hook.agrees_onPlain {hook hook' : Hook γ σ} (h : ∀ n, hook.AgreesAt vars hook' n) :
    (Hooks.onPlain hook).Agrees vars (Hooks.onPlain hook') := by
  intro n n' position position' c s hn hposition
  obtain ⟨hsignal, hcontext, hstate⟩ := h n.plain position position' c s hposition
  rw [Hooks.onPlain_eq, Hooks.onPlain_eq, ← hn.plain_eq]
  exact ⟨hsignal.map fun _ _ => Signal.Twins.formed hn.plain_eq, hcontext, hstate⟩

theorem Hook.AgreesAt.getD {any any' : Hook γ σ} {n : Node} (hany : any.AgreesAt vars any' n)
    {hook? hook'? : Option (Hook γ σ)}
    (hat : Option.Rel (fun hook hook' => Hook.AgreesAt vars hook hook' n) hook? hook'?) :
    Hook.AgreesAt vars (hook?.getD any) (hook'?.getD any') n := by
  cases hat with
  | none => exact hany
  | some hat => exact hat

/-- The visitors of hooks that want the same agree: they see all nodes in plain form. -/
theorem Hooks.Agrees.visitor {h h' : Hooks γ σ} (hagrees : h.Agrees vars h') :
    h.visitor.Agrees vars h'.visitor := by
  have henter : ∀ n, Hook.AgreesAt vars (fun n => (h.enterAt n.shape).getD h.enterAny n)
      (fun n => (h'.enterAt n.shape).getD h'.enterAny n) n :=
    fun n => (hagrees.enterAny n).getD (hagrees.enterAt n)
  have hleave : ∀ n, Hook.AgreesAt vars (fun n => (h.leaveAt n.shape).getD h.leaveAny n)
      (fun n => (h'.leaveAt n.shape).getD h'.leaveAny n) n :=
    fun n => (hagrees.leaveAny n).getD (hagrees.leaveAt n)
  exact ⟨Hook.agrees_onPlain henter, Hook.agrees_onPlain hleave⟩

/-- The hook looks at ancestors only in plain form. -/
def Hook.LooksPlain (hook : Hook γ σ) : Prop :=
  ∀ n (position position' : Position) c s, position.plain = position'.plain →
    hook n position c s = hook n position' c s

theorem Hook.LooksPlain.agreesAt {hook : Hook γ σ} (h : hook.LooksPlain) (n : Node) :
    hook.AgreesAt vars hook n := by
  intro position position' c s hposition
  rw [h n position position' c s hposition]
  refine ⟨?_, rfl, rfl⟩
  cases (hook n position' c s).signal with
  | error e => exact .error e
  | ok signal => exact .ok (.same signal)

/-- Hooks that look at ancestors only in plain form do not tell forms apart. -/
theorem Hooks.agrees_self {h : Hooks γ σ} (henterAny : h.enterAny.LooksPlain)
    (hleaveAny : h.leaveAny.LooksPlain)
    (henterAt : ∀ shape, ∀ hook ∈ h.enterAt shape, hook.LooksPlain)
    (hleaveAt : ∀ shape, ∀ hook ∈ h.leaveAt shape, hook.LooksPlain) :
    h.Agrees vars h := by
  have hat : ∀ (n : Node) (hook? : Option (Hook γ σ)), (∀ hook ∈ hook?, hook.LooksPlain) →
      Option.Rel (fun hook hook' => Hook.AgreesAt vars hook hook' n) hook? hook? := by
    intro n hook? hlooks
    cases hook? with
    | none => exact .none
    | some hook => exact .some ((hlooks hook rfl).agreesAt n)
  exact ⟨henterAny.agreesAt, hleaveAny.agreesAt, fun n => hat n _ (henterAt n.shape),
    fun n => hat n _ (hleaveAt n.shape)⟩

/-! ## Pairs of visitors -/

/-- Two forms of a node in the hands of several visitors. -/
inductive Pass.Twins (vars : Bool) (n n' : Node) : Pass → Pass → Prop where
  | start : Twins vars n n' (.start n) (.start n')
  | edited {m m' : Node} {e e' : Edit} (hm : m.Twins vars m')
      (he : Signal.Twins vars n n' (.edit e) (.edit e')) :
      Twins vars n n' ⟨m, some e⟩ ⟨m', some e'⟩

/-- What there is to go on with after visitors were called for two forms of a node. -/
structure Called.Twins {α : Type} (vars : Bool) (n n' : Node) (x y : Called γ α) :
    Prop where
  pass : OutcomesAlike (Pass.Twins vars n n') x.pass y.pass
  context : x.context = y.context
  seats : x.seats = y.seats

namespace Pass.Twins

variable {n n' : Node} {p p' : Pass}

theorem node (h : p.Twins vars n n' p') (hn : n.Twins vars n') :
    p.node.Twins vars p'.node := by
  cases h with
  | start => exact hn
  | edited hm he => exact hm

theorem isDeleted_eq (h : p.Twins vars n n' p') : p.isDeleted = p'.isDeleted := by
  cases h with
  | start => rfl
  | edited hm he => cases he <;> rfl

theorem take (hn : n.Twins vars n') {e e' : Edit}
    (he : Signal.Twins vars n n' (.edit e) (.edit e')) :
    ((Pass.start n).take e).Twins vars n n' ((Pass.start n').take e') := by
  cases he with
  | same =>
    cases e with
    | keep => exact .edited hn (.same _)
    | replace r | restore r => exact .edited (.same r) (.same _)
    | delete => exact .edited hn (.same _)
  | replaced h => exact .edited h (.replaced h)
  | keptRight hne h => exact .edited h (.keptRight hne h)
  | keptLeft hne h => exact .edited h (.keptLeft hne h)

theorem apply (h : p.Twins vars n n' p') (hn : n.Twins vars n') {signal signal' : Signal}
    (hsignal : signal.Twins vars p.node p'.node signal') (turn : Turn)
    (skipDepth : Option Int) :
    (p.apply turn skipDepth signal).1.Twins vars n n' (p'.apply turn skipDepth signal').1 ∧
      (p.apply turn skipDepth signal).2 = (p'.apply turn skipDepth signal').2 := by
  have hturn : (p.apply turn skipDepth signal).2 = (p'.apply turn skipDepth signal').2 := by
    cases hsignal with
    | same => cases signal <;> cases skipDepth <;> rfl
    | replaced | keptRight | keptLeft => rfl
  refine ⟨?_, hturn⟩
  cases h with
  | start =>
    have hedit : ∀ e e', Signal.Twins vars n n' (.edit e) (.edit e') →
        ((Pass.start n).apply turn skipDepth (.edit e)).1.Twins vars n n'
          ((Pass.start n').apply turn skipDepth (.edit e')).1 := fun _ _ he => take hn he
    cases hsignal with
    | same =>
      cases signal with
      | next | stop => exact .start
      | skip => cases skipDepth <;> exact .start
      | edit e => exact hedit e e (.same _)
    | replaced h => exact hedit _ _ (.replaced h)
    | keptRight hne h => exact hedit _ _ (.keptRight hne h)
    | keptLeft hne h => exact hedit _ _ (.keptLeft hne h)
  | edited hm he =>
    rw [Pass.apply_of_edit (by simp), Pass.apply_of_edit (by simp)]
    exact .edited hm he

theorem signal (h : p.Twins vars n n' p') (turn turn' : Turn) :
    (p.signal turn turn').Twins vars n n' (p'.signal turn turn') := by
  unfold Pass.signal
  rw [h.isDeleted_eq]
  split
  · exact .same _
  · split
    · exact .same _
    · cases h with
      | start => exact .same _
      | edited hm he => exact he

end Pass.Twins

section Compose
variable {n n' : Node} {position position' : Position} {p p' : Pass}

theorem Seat.call_twins {hook hook' : Hook γ σ} (h : hook.Agrees vars hook')
    (hn : n.Twins vars n') (hposition : position.plain = position'.plain)
    (hp : p.Twins vars n n' p') (skipDepth : Option Int) (seat : Seat σ) (c : γ) :
    Called.Twins vars n n' (seat.call hook skipDepth position p c)
      (seat.call hook' skipDepth position' p' c) := by
  by_cases hturn : seat.turn = .visiting
  · obtain ⟨hsignal, hcontext, hstate⟩ := h p.node p'.node position position' c seat.state
      (hp.node hn) hposition
    generalize hx : (hook p.node position c seat.state).signal = x at hsignal
    generalize hy : (hook' p'.node position' c seat.state).signal = y at hsignal
    cases hsignal with
    | error e =>
      rw [call_error _ hturn hx, call_error _ hturn hy]
      exact ⟨.error e, hcontext, congrArg (Seat.mk _) hstate⟩
    | ok hsignal =>
      rw [call_ok _ hturn hx, call_ok _ hturn hy]
      obtain ⟨hpass, hafter⟩ := hp.apply hn hsignal .visiting skipDepth
      refine ⟨.ok hpass, hcontext, ?_⟩
      rw [hafter, hstate]
  · rw [call_aside _ hturn, call_aside _ hturn]
    exact ⟨.ok hp, rfl, rfl⟩

theorem Called.andThen_twins {α β : Type} {x y : Called γ α}
    (h : Called.Twins vars n n' x y) {others : β} {call call' : β → Pass → γ → Called γ β}
    (hcall : ∀ p p' c, Pass.Twins vars n n' p p' →
      Called.Twins vars n n' (call others p c) (call' others p' c)) :
    Called.Twins vars n n' (x.andThen others call) (y.andThen others call') := by
  obtain ⟨pass, c, seats⟩ := x
  obtain ⟨pass', _, _⟩ := y
  obtain ⟨hpass, rfl, rfl⟩ := h
  cases hpass with
  | error e => exact ⟨.error e, rfl, rfl⟩
  | @ok p p' hp =>
    cases hdeleted : p.isDeleted with
    | true =>
      rw [andThen_deleted rfl hdeleted, andThen_deleted rfl (hp.isDeleted_eq.symm.trans hdeleted)]
      exact ⟨.ok hp, rfl, rfl⟩
    | false =>
      rw [andThen_ok rfl hdeleted, andThen_ok rfl (hp.isDeleted_eq.symm.trans hdeleted)]
      have hothers := hcall p p' c hp
      exact ⟨hothers.pass, hothers.context, congrArg (Prod.mk _) hothers.seats⟩

variable {a a' : Visitor γ σ} {b b' : Visitor γ τ}

theorem Signal.Twins.entered_eq {signal signal' : Signal}
    (h : signal.Twins vars n n' signal') (depth : Int) (seats : Seat σ × Seat τ) :
    Pair.entered depth seats signal = Pair.entered depth seats signal' := by
  cases h <;> rfl

/-- Pairs of visitors that agree do so as well. -/
theorem Visitor.Agrees.compose (ha : a.Agrees vars a') (hb : b.Agrees vars b') :
    (a.compose b).Agrees vars (a'.compose b') := by
  constructor
  · intro n n' position position' c pair hn hposition
    have hopened : pair.opened position = pair.opened position' := by
      have hlength := Position.length_alike hposition
      simp only [Pair.opened, List.isEmpty_iff_length_eq_zero, hlength]
    have hcalled : Called.Twins vars n n'
        ((pair.opened position).enterBoth a b ((pair.opened position).depth + 1) n position c)
        ((pair.opened position).enterBoth a' b' ((pair.opened position).depth + 1) n'
          position' c) :=
      Called.andThen_twins (Seat.call_twins ha.enter hn hposition .start _ _ _)
        fun p p' c hp => Seat.call_twins hb.enter hn hposition hp _ _ _
    generalize hx : (pair.opened position).enterBoth a b _ n position c = x at hcalled
    generalize hy : (pair.opened position).enterBoth a' b' _ n' position' c = y at hcalled
    rw [hopened] at hy
    obtain ⟨pass, c₁, seats⟩ := x
    obtain ⟨pass', _, _⟩ := y
    obtain ⟨hpass, rfl, rfl⟩ := hcalled
    have hdepth := congrArg (·.depth + 1) hopened
    cases hpass with
    | error e =>
      rw [compose_enter_error rfl hx rfl, compose_enter_error hdepth.symm (hdepth ▸ hy) rfl]
      exact ⟨.error e, rfl, rfl⟩
    | ok hp =>
      rw [compose_enter_ok rfl hx rfl, compose_enter_ok hdepth.symm (hdepth ▸ hy) rfl]
      exact ⟨.ok (hp.signal _ _), rfl, (hp.signal _ _).entered_eq _ _⟩
  · intro n n' position position' c pair hn hposition
    have hcalled : Called.Twins vars n n' (pair.leaveBoth a b n position c)
        (pair.leaveBoth a' b' n' position' c) :=
      Called.andThen_twins (Seat.call_twins ha.leave hn hposition .start _ _ _)
        fun p p' c hp => Seat.call_twins hb.leave hn hposition hp _ _ _
    generalize hx : pair.leaveBoth a b n position c = x at hcalled
    generalize hy : pair.leaveBoth a' b' n' position' c = y at hcalled
    obtain ⟨pass, c₁, seats⟩ := x
    obtain ⟨pass', _, _⟩ := y
    obtain ⟨hpass, rfl, rfl⟩ := hcalled
    cases hpass with
    | error e =>
      rw [compose_leave_error hx rfl, compose_leave_error hy rfl]
      exact ⟨.error e, rfl, rfl⟩
    | ok hp =>
      rw [compose_leave_ok hx rfl, compose_leave_ok hy rfl]
      exact ⟨.ok (hp.signal _ _), rfl, rfl⟩

end Compose
end QueryDoc
