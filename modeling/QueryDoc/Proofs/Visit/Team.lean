import QueryDoc.Proofs.Visit.Lockstep
import QueryDoc.Proofs.Visit.Record
import QueryDoc.Visit.Compose

/-! Visitors in nested pairs, and the same visitors side by side. The side by side form is
what a nested one is meant to do: every visitor has a turn of its own, waits for a node by
how deep that node really is, and takes its edits to one pass over the node that all of
them share. -/
namespace QueryDoc

/-- The signal of several visitors with these turns: a deletion first, then a stop of all,
then an edit, and a skip where none takes part. -/
def Pass.verdict (p : Pass) (turns : List Turn) : Signal :=
  if p.isDeleted then .edit .delete
  else if ∀ t ∈ turns, t = .stopped then .stop
  else
    match p.edit with
    | some e => .edit e
    | none => if ∀ t ∈ turns, t ≠ .visiting then .skip else .next

theorem Pass.signal_eq_verdict (p : Pass) {t t' : Turn} {turns : List Turn}
    (hstopped : (t = .stopped ∧ t' = .stopped) ↔ ∀ u ∈ turns, u = .stopped)
    (hpaused : (t ≠ .visiting ∧ t' ≠ .visiting) ↔ ∀ u ∈ turns, u ≠ .visiting) :
    p.signal t t' = p.verdict turns := by
  refine ite_congr rfl (fun _ => rfl) fun _ =>
    ite_congr (propext hstopped) (fun _ => rfl) fun _ => ?_
  cases p.edit with
  | some e => rfl
  | none => exact ite_congr (propext hpaused) (fun _ => rfl) fun _ => rfl

/-- On the way up it only matters whether all have stopped. -/
theorem Pass.signal_upward (p : Pass) {t t' : Turn} {turns : List Turn}
    (hstopped : (t = .stopped ∧ t' = .stopped) ↔ ∀ u ∈ turns, u = .stopped) :
    (p.signal t t').upward = (p.verdict turns).upward := by
  unfold signal verdict
  by_cases hdeleted : p.isDeleted = true
  · rw [if_pos hdeleted, if_pos hdeleted]
  · rw [if_neg hdeleted, if_neg hdeleted]
    by_cases hall : ∀ u ∈ turns, u = .stopped
    · rw [if_pos (hstopped.mpr hall), if_pos hall]
    · rw [if_neg (mt hstopped.mp hall), if_neg hall]
      cases p.edit with
      | some e => rfl
      | none =>
        dsimp only
        split <;> split <;> rfl

/-- How a visitor's hooks of a phase differ: on the way up nobody can skip. -/
def Phase.skipDepth (phase : Phase) (depth : Int) : Option Int :=
  match phase with
  | .entering => some depth
  | .leaving => none

def Visitor.hook {γ σ : Type} (v : Visitor γ σ) : Phase → Hook γ σ
  | .entering => v.enter
  | .leaving => v.leave

namespace Seat

variable {γ σ : Type}

/-- The seat when a phase for the node at a depth begins: on the way up, whoever waits for the
node resumes. -/
def opened (phase : Phase) (depth : Int) (seat : Seat σ) : Seat σ :=
  match phase with
  | .entering => seat
  | .leaving => seat.resumed depth

/-- Calls a visitor in a phase for the node at a depth. -/
def serve (phase : Phase) (v : Visitor γ σ) (depth : Int) (position : Position)
    (seat : Seat σ) : Pass → γ → Called γ (Seat σ) :=
  (seat.opened phase depth).call (v.hook phase) (phase.skipDepth depth) position

end Seat

/-- Visitors in nested pairs, with the state that they have so and the one that they have
side by side. A visitor in it may be anything, even a pair that is taken as a whole. -/
inductive Team (γ : Type) : Type → Type → Type 1 where
  | leaf {σ : Type} (v : Visitor γ σ) : Team γ σ (Seat σ)
  | pair {σ τ ρ ς : Type} (a : Team γ σ ρ) (b : Team γ τ ς) : Team γ (Pair σ τ) (ρ × ς)

namespace Team

variable {γ σ ρ : Type}

/-- The team as one visitor, pair by pair. -/
def visitor {σ ρ : Type} : Team γ σ ρ → Visitor γ σ
  | .leaf v => v
  | .pair a b => a.visitor.compose b.visitor

def IsPair {σ ρ : Type} : Team γ σ ρ → Prop
  | .leaf _ => False
  | .pair .. => True

/-! ## Side by side -/

/-- The turns of the visitors from first to last. -/
def turns {σ ρ : Type} : Team γ σ ρ → ρ → List Turn
  | .leaf _, seat => [seat.turn]
  | .pair a b, (r, r') => a.turns r ++ b.turns r'

/-- All visitors take part. -/
def fresh {σ ρ : Type} : Team γ σ ρ → ρ → ρ
  | .leaf _, seat => ⟨.visiting, seat.state⟩
  | .pair a b, (r, r') => (a.fresh r, b.fresh r')

/-- Whoever waited for the node at a depth takes part again. -/
def resumed {σ ρ : Type} (depth : Int) : Team γ σ ρ → ρ → ρ
  | .leaf _, seat => seat.resumed depth
  | .pair a b, (r, r') => (a.resumed depth r, b.resumed depth r')

/-- Calls the visitors from first to last for the node at a depth, until one deletes it. -/
def callAll {σ ρ : Type} (phase : Phase) (depth : Int) (position : Position) :
    Team γ σ ρ → ρ → Pass → γ → Called γ ρ
  | .leaf v, seat => seat.serve phase v depth position
  | .pair a b, (r, r') => fun pass c =>
    (a.callAll phase depth position r pass c).andThen r' (b.callAll phase depth position)

/-- The team as one visitor, side by side. -/
def flat (t : Team γ σ ρ) : Visitor γ ρ where
  enter n position c r :=
    let r := if position.ancestors.isEmpty then t.fresh r else r
    let depth : Int := position.ancestors.length + 1
    let called := t.callAll .entering depth position r (.start n) c
    match called.pass with
    | .error e => ⟨.error e, called.context, called.seats⟩
    | .ok pass =>
      ⟨.ok (pass.verdict (t.turns called.seats)), called.context,
        if pass.isDeleted then t.resumed depth called.seats else called.seats⟩
  leave n position c r :=
    let depth : Int := position.ancestors.length + 1
    let called := t.callAll .leaving depth position r (.start n) c
    let r := t.resumed depth called.seats
    match called.pass with
    | .error e => ⟨.error e, called.context, r⟩
    | .ok pass => ⟨.ok (pass.verdict (t.turns r)), called.context, r⟩

end Team

/-! ## What some visitors never do -/

def Signal.IsEdit (signal : Signal) : Prop := ∃ e, signal = .edit e

def Signal.IsDelete (signal : Signal) : Prop := signal = .edit .delete

/-- The hook gives no such signal. -/
def Hook.Never {γ σ : Type} (hook : Hook γ σ) (bad : Signal → Prop) : Prop :=
  ∀ n position c s signal, (hook n position c s).signal = .ok signal → ¬ bad signal

namespace Team

variable {γ σ ρ : Type}

/-- No visitor of the team gives such a signal in a phase. -/
def Never {σ ρ : Type} (phase : Phase) (bad : Signal → Prop) : Team γ σ ρ → Prop
  | .leaf v => (v.hook phase).Never bad
  | .pair a b => a.Never phase bad ∧ b.Never phase bad

/-- Nobody overrules a pair in the team: no visitor after it deletes nodes that it entered,
no visitor before it deletes nodes that it is to leave, and of it and of the visitors before
it some make no edits, so that all of its edits count. -/
def Steady {σ ρ : Type} : Team γ σ ρ → Prop
  | .leaf _ => True
  | .pair a b =>
    a.Steady ∧ b.Steady ∧ (a.IsPair → b.Never .entering Signal.IsDelete) ∧
      (b.IsPair → a.Never .leaving Signal.IsDelete ∧
        ∀ phase, a.Never phase Signal.IsEdit ∨ b.Never phase Signal.IsEdit)

end Team

/-! ## One pass over a node -/

/-- The turn of a visitor after a signal in its turn. -/
def Signal.turnAfter (skipDepth : Option Int) : Signal → Turn
  | .skip => (skipDepth.map Turn.skipping).getD .visiting
  | .stop => .stopped
  | .next | .edit _ => .visiting

namespace Signal

theorem turnAfter_upward (signal : Signal) : signal.upward.turnAfter none = signal.turnAfter none := by
  cases signal <;> rfl

theorem turnAfter_of_ne_stop {signal : Signal} (h : signal ≠ .stop) :
    signal.turnAfter none = .visiting := by
  cases signal with
  | stop => exact absurd rfl h
  | next | skip | edit _ => rfl

end Signal

namespace Pass

theorem apply_turn (p : Pass) (skipDepth : Option Int) (signal : Signal) :
    (p.apply .visiting skipDepth signal).2 = signal.turnAfter skipDepth := by
  cases signal <;> cases skipDepth <;> rfl

theorem apply_of_not_isEdit (p : Pass) (turn : Turn) (skipDepth : Option Int) {signal : Signal}
    (h : ¬ signal.IsEdit) : (p.apply turn skipDepth signal).1 = p := by
  cases signal with
  | next | stop => rfl
  | skip => cases skipDepth <;> rfl
  | edit e => exact absurd ⟨e, rfl⟩ h

theorem take_edit_ne_none (p : Pass) (e : Edit) : (p.take e).edit ≠ none := by
  unfold take
  cases hedit : p.edit with
  | some e' => simp [hedit]
  | none => cases e <;> simp

theorem take_of_edit {p : Pass} (h : p.edit ≠ none) (e : Edit) : p.take e = p := by
  unfold take
  cases hedit : p.edit with
  | some e' => rfl
  | none => exact absurd hedit h

theorem isDeleted_take {p : Pass} (h : p.isDeleted = false) {e : Edit} (he : e ≠ .delete) :
    (p.take e).isDeleted = false := by
  unfold take
  cases hedit : p.edit with
  | some e' => exact h
  | none => cases e <;> simp_all [isDeleted]

theorem apply_of_edit {p : Pass} (h : p.edit ≠ none) (turn : Turn) (skipDepth : Option Int)
    (signal : Signal) : (p.apply turn skipDepth signal).1 = p := by
  cases signal with
  | next | stop => rfl
  | skip => cases skipDepth <;> rfl
  | edit e => exact take_of_edit h e

/-- On the way up a skip means nothing to a pass. -/
theorem apply_upward (p : Pass) (turn : Turn) (signal : Signal) :
    (p.apply turn none signal.upward).1 = (p.apply turn none signal).1 := by
  cases signal <;> rfl

/-- What becomes of a pass when visitors had a pass of their own over its node. -/
def absorb (p q : Pass) : Pass := if p.edit = none then q else p

theorem eq_start {p : Pass} (h : p.edit = none) : p = start p.node := by
  obtain ⟨n, edit⟩ := p
  obtain rfl : edit = none := h
  rfl

/-- A pass after visitors had it: at most one edit was taken up, from one that takes part. -/
def Grew (p q : Pass) (turns : List Turn) : Prop :=
  q = p ∨ p.edit = none ∧ (∃ e, q = p.take e) ∧ .visiting ∈ turns

theorem Grew.mono {p q : Pass} {turns turns' : List Turn} (h : p.Grew q turns)
    (hmem : .visiting ∈ turns → .visiting ∈ turns') : p.Grew q turns' := by
  rcases h with rfl | ⟨hnone, htaken, hvisits⟩
  · exact .inl rfl
  · exact .inr ⟨hnone, htaken, hmem hvisits⟩

theorem Grew.append_right {p q : Pass} {turns : List Turn} (h : p.Grew q turns)
    (turns' : List Turn) : p.Grew q (turns ++ turns') :=
  h.mono (List.mem_append_left turns')

theorem Grew.trans {p q q' : Pass} {turns turns' : List Turn} (h : p.Grew q turns)
    (h' : q.Grew q' turns') : p.Grew q' (turns ++ turns') := by
  rcases h' with rfl | ⟨hnone, htaken, hmem⟩
  · exact h.append_right turns'
  · rcases h with rfl | ⟨-, ⟨e, rfl⟩, -⟩
    · exact .inr ⟨hnone, htaken, List.mem_append_right turns hmem⟩
    · exact absurd hnone (p.take_edit_ne_none e)

/-- A pass with a new edit has someone who takes part. -/
theorem Grew.visiting_mem {p q : Pass} {turns : List Turn} (h : p.Grew q turns)
    (hnew : q.edit ≠ p.edit) : .visiting ∈ turns := by
  rcases h with rfl | ⟨-, -, hmem⟩
  · exact absurd rfl hnew
  · exact hmem

end Pass

/-! ## Verdicts -/

namespace Pass

variable {q : Pass} {turns : List Turn}

theorem verdict_deleted (turns : List Turn) (h : q.isDeleted = true) :
    q.verdict turns = .edit .delete :=
  if_pos h

theorem verdict_cases (turns : List Turn) (h : q.isDeleted = false) :
    (q.verdict turns = .stop ∧ ∀ u ∈ turns, u = .stopped) ∨
    (¬ ∀ u ∈ turns, u = .stopped) ∧
      ((∃ e, e ≠ .delete ∧ q.edit = some e ∧ q.verdict turns = .edit e) ∨
       q.edit = none ∧ q.verdict turns = .skip ∧ (∀ u ∈ turns, u ≠ .visiting) ∨
       q.edit = none ∧ q.verdict turns = .next ∧ .visiting ∈ turns) := by
  unfold verdict
  rw [if_neg (by rw [h]; exact Bool.false_ne_true)]
  by_cases hstop : ∀ u ∈ turns, u = .stopped
  · exact .inl ⟨if_pos hstop, hstop⟩
  · refine .inr ⟨hstop, ?_⟩
    rw [if_neg hstop]
    cases hedit : q.edit with
    | some e =>
      refine .inl ⟨e, ?_, rfl, rfl⟩
      rintro rfl
      simp only [isDeleted, hedit, decide_true, Bool.true_eq_false] at h
    | none =>
      by_cases hpaused : ∀ u ∈ turns, u ≠ .visiting
      · exact .inr (.inl ⟨rfl, if_pos hpaused, hpaused⟩)
      · refine .inr (.inr ⟨rfl, if_neg hpaused, ?_⟩)
        exact Decidable.byContradiction fun hmem =>
          hpaused fun u hu hvisits => hmem (hvisits ▸ hu)

/-- The verdict is to stop just where all have stopped, unless one of them deleted the node. -/
theorem verdict_eq_stop (h : q.isDeleted = true → ¬ ∀ u ∈ turns, u = .stopped) :
    q.verdict turns = .stop ↔ ∀ u ∈ turns, u = .stopped := by
  cases hdeleted : q.isDeleted with
  | true =>
    rw [verdict_deleted turns hdeleted]
    exact ⟨nofun, fun hall => absurd hall (h hdeleted)⟩
  | false =>
    rcases verdict_cases turns hdeleted with ⟨heq, hall⟩ | ⟨hgoing, ⟨e, -, -, heq⟩ | ⟨-, heq, -⟩ |
      ⟨-, heq, -⟩⟩
    · exact ⟨fun _ => hall, fun _ => heq⟩
    all_goals
      rw [heq]
      exact ⟨nofun, fun hall => absurd hall hgoing⟩

theorem verdict_of_edit {e : Edit} (h : q.edit = some e) (hmem : .visiting ∈ turns) :
    q.verdict turns = .edit e := by
  have hnot : ¬ ∀ u ∈ turns, u = .stopped := fun hall => nomatch hall _ hmem
  cases hdeleted : q.isDeleted with
  | true =>
    rw [verdict_deleted turns hdeleted]
    rw [isDeleted, h, decide_eq_true_iff, Option.some.injEq] at hdeleted
    rw [hdeleted]
  | false =>
    rcases verdict_cases turns hdeleted with ⟨-, hall⟩ | ⟨-, ⟨e', -, hedit, heq⟩ | ⟨hedit, -⟩ |
      ⟨hedit, -⟩⟩
    · exact absurd hall hnot
    · rw [heq, ← Option.some.inj (hedit.symm.trans h)]
    · cases hedit.symm.trans h
    · cases hedit.symm.trans h

/-- Whoever takes up the verdict on a pass from the same node has that pass. -/
theorem Grew.take_verdict {n : Node} (h : (start n).Grew q turns) (turn : Turn)
    (skipDepth : Option Int) :
    ((start n).apply turn skipDepth (q.verdict turns)).1 = q := by
  rcases h with rfl | ⟨-, ⟨e, rfl⟩, hmem⟩
  · apply apply_of_not_isEdit
    rintro ⟨e, he⟩
    rcases verdict_cases turns (isDeleted_start n) with ⟨heq, -⟩ | ⟨-, ⟨e', -, hedit, -⟩ |
      ⟨-, heq, -⟩ | ⟨-, heq, -⟩⟩
    · cases heq.symm.trans he
    · cases hedit
    · cases heq.symm.trans he
    · cases heq.symm.trans he
  · have hedit : ((start n).take e).edit = some e := by cases e <;> rfl
    rw [verdict_of_edit hedit hmem]
    rfl

/-- A pair's signal does to a pass what its visitors do to it. -/
theorem Grew.apply_verdict {p : Pass} (h : (start p.node).Grew q turns) (turn : Turn)
    (skipDepth : Option Int) : (p.apply turn skipDepth (q.verdict turns)).1 = p.absorb q := by
  unfold absorb
  split
  · next hedit =>
    rw [eq_start hedit]
    exact h.take_verdict turn skipDepth
  · next hedit => exact apply_of_edit hedit turn skipDepth _

/-- Whoever deleted the node takes part. -/
theorem Grew.mem_of_deleted {n : Node} (h : (start n).Grew q turns)
    (hdeleted : q.isDeleted = true) : .visiting ∈ turns := by
  apply h.visiting_mem
  intro hnone
  rw [isDeleted, hnone] at hdeleted
  cases hdeleted

/-- If the verdict is to go on, somebody takes part. -/
theorem Grew.mem_of_turnAfter {n : Node} (h : (start n).Grew q turns) {depth : Int}
    (hturn : (q.verdict turns).turnAfter (some depth) = .visiting) : .visiting ∈ turns := by
  by_cases hedit : q.edit = none
  · have hdeleted : q.isDeleted = false := by simp [isDeleted, hedit]
    rcases verdict_cases turns hdeleted with ⟨heq, -⟩ | ⟨-, ⟨e', -, hedit', -⟩ | ⟨-, heq, -⟩ |
      ⟨-, -, hmem⟩⟩
    · rw [heq] at hturn
      cases hturn
    · cases hedit.symm.trans hedit'
    · rw [heq] at hturn
      cases hturn
    · exact hmem
  · exact h.visiting_mem hedit

end Pass

/-! ## One visitor -/

namespace Seat

variable {γ σ : Type} {phase : Phase} {v : Visitor γ σ} {depth : Int} {position : Position}
variable {seat : Seat σ} {p q : Pass} {c : γ}

theorem call_replied_error {hook : Hook γ σ} (skipDepth : Option Int)
    (hturn : seat.turn = .visiting) {e : Error} {c' : γ} {s : σ}
    (h : hook p.node position c seat.state = ⟨.error e, c', s⟩) :
    seat.call hook skipDepth position p c = ⟨.error e, c', ⟨.visiting, s⟩⟩ := by
  rw [call_error skipDepth hturn (by rw [h]), h]

theorem call_replied_ok {hook : Hook γ σ} (skipDepth : Option Int)
    (hturn : seat.turn = .visiting) {signal : Signal} {c' : γ} {s : σ}
    (h : hook p.node position c seat.state = ⟨.ok signal, c', s⟩) :
    seat.call hook skipDepth position p c =
      ⟨.ok (p.apply .visiting skipDepth signal).1, c', ⟨signal.turnAfter skipDepth, s⟩⟩ := by
  rw [call_ok skipDepth hturn (by rw [h]), h, Pass.apply_turn]

theorem opened_of_aside (phase : Phase) (h : seat.turn.resumed depth ≠ .visiting) :
    seat.opened phase depth = seat := by
  cases phase with
  | entering => rfl
  | leaving => simp only [opened, resumed, Turn.resumed_of_paused h]

theorem serve_aside (phase : Phase) (v : Visitor γ σ) (position : Position) (p : Pass) (c : γ)
    (h : seat.turn.resumed depth ≠ .visiting) :
    seat.serve phase v depth position p c = ⟨.ok p, c, seat⟩ := by
  rw [serve, opened_of_aside phase h]
  rw [Turn.resumed_of_paused h] at h
  exact call_aside _ h

theorem serve_grew (h : (seat.serve phase v depth position p c).pass = .ok q) :
    p.Grew q [(seat.serve phase v depth position p c).seats.turn] := by
  unfold serve at h ⊢
  by_cases hturn : (seat.opened phase depth).turn = .visiting
  · cases hsignal : (v.hook phase p.node position c (seat.opened phase depth).state).signal with
    | error e =>
      rw [call_error _ hturn hsignal] at h
      cases h
    | ok signal =>
      rw [call_ok _ hturn hsignal] at h ⊢
      cases h
      by_cases hedit : signal.IsEdit
      · obtain ⟨e, rfl⟩ := hedit
        cases hnone : p.edit with
        | none => exact .inr ⟨hnone, ⟨e, rfl⟩, List.mem_singleton_self _⟩
        | some e' => exact .inl (Pass.take_of_edit (by rw [hnone]; exact Option.some_ne_none e') e)
      · exact .inl (p.apply_of_not_isEdit _ _ hedit)
  · rw [call_aside _ hturn] at h
    cases h
    exact .inl rfl

theorem serve_silent (h : (v.hook phase).Never Signal.IsEdit) (depth : Int)
    (position : Position) (seat : Seat σ) (n : Node) (c : γ) :
    ∃ (result : Except Error Unit) (c' : γ) (seat' : Seat σ), ∀ p : Pass, p.node = n →
      seat.serve phase v depth position p c = ⟨result.map fun _ => p, c', seat'⟩ := by
  unfold serve
  by_cases hturn : (seat.opened phase depth).turn = .visiting
  · cases hsignal : (v.hook phase n position c (seat.opened phase depth).state).signal with
    | error e =>
      refine ⟨.error e, (v.hook phase n position c (seat.opened phase depth).state).context,
        ⟨.visiting, (v.hook phase n position c (seat.opened phase depth).state).state⟩, ?_⟩
      rintro p rfl
      exact call_error _ hturn hsignal
    | ok signal =>
      refine ⟨.ok (), (v.hook phase n position c (seat.opened phase depth).state).context,
        ⟨signal.turnAfter (phase.skipDepth depth),
          (v.hook phase n position c (seat.opened phase depth).state).state⟩, ?_⟩
      rintro p rfl
      rw [call_ok _ hturn hsignal, Pass.apply_turn,
        p.apply_of_not_isEdit _ _ (h _ _ _ _ _ hsignal)]
      rfl
  · refine ⟨.ok (), c, seat.opened phase depth, ?_⟩
    rintro p -
    exact call_aside _ hturn

theorem serve_kept (h : (v.hook phase).Never Signal.IsDelete) (hp : p.isDeleted = false)
    (hq : (seat.serve phase v depth position p c).pass = .ok q) : q.isDeleted = false := by
  unfold serve at hq
  by_cases hturn : (seat.opened phase depth).turn = .visiting
  · cases hsignal : (v.hook phase p.node position c (seat.opened phase depth).state).signal with
    | error e =>
      rw [call_error _ hturn hsignal] at hq
      cases hq
    | ok signal =>
      rw [call_ok _ hturn hsignal] at hq
      cases hq
      by_cases hedit : signal.IsEdit
      · obtain ⟨e, rfl⟩ := hedit
        refine Pass.isDeleted_take hp ?_
        rintro rfl
        exact h _ _ _ _ _ hsignal rfl
      · rw [p.apply_of_not_isEdit _ _ hedit]
        exact hp
  · rw [call_aside _ hturn] at hq
    cases hq
    exact hp

end Seat

/-! ## All visitors -/

namespace Called

variable {γ α β : Type} {called : Called γ α} {others : β} {call : β → Pass → γ → Called γ β}

/-- How a pass through two groups of visitors can end. -/
theorem andThen_cases {q : Pass} (h : (called.andThen others call).pass = .ok q) :
    (called.pass = .ok q ∧ q.isDeleted = true ∧
      called.andThen others call = ⟨.ok q, called.context, (called.seats, others)⟩) ∨
    ∃ p, called.pass = .ok p ∧ p.isDeleted = false ∧
      (call others p called.context).pass = .ok q ∧
      called.andThen others call = ⟨.ok q, (call others p called.context).context,
        (called.seats, (call others p called.context).seats)⟩ := by
  cases hpass : called.pass with
  | error e =>
    rw [andThen_error hpass] at h
    cases h
  | ok p =>
    cases hdeleted : p.isDeleted with
    | true =>
      rw [andThen_deleted hpass hdeleted] at h ⊢
      cases h
      exact .inl ⟨rfl, hdeleted, rfl⟩
    | false =>
      rw [andThen_ok hpass hdeleted] at h ⊢
      exact .inr ⟨p, rfl, hdeleted, h, by rw [show (call others p _).pass = .ok q from h]⟩

end Called

namespace Team

variable {γ σ ρ : Type} {phase : Phase} {depth : Int} {position : Position}

theorem turns_resumed (depth : Int) (t : Team γ σ ρ) (r : ρ) :
    t.turns (t.resumed depth r) = (t.turns r).map (Turn.resumed depth) := by
  induction t with
  | leaf v => rfl
  | pair a b iha ihb => simp only [resumed, turns, iha, ihb, List.map_append]

theorem turns_fresh (t : Team γ σ ρ) (r : ρ) : ∀ u ∈ t.turns (t.fresh r), u = .visiting := by
  induction t with
  | leaf v => simp only [fresh, turns, List.mem_singleton, imp_self, implies_true]
  | pair a b iha ihb =>
    simp only [fresh, turns, List.mem_append]
    rintro u (hu | hu)
    · exact iha r.1 u hu
    · exact ihb r.2 u hu

theorem resumed_of_aside (t : Team γ σ ρ) (r : ρ)
    (h : ∀ u ∈ t.turns r, u.resumed depth = u) : t.resumed depth r = r := by
  induction t with
  | leaf v => simp only [resumed, Seat.resumed, h _ (List.mem_singleton_self _)]
  | pair a b iha ihb =>
    simp only [resumed, iha r.1 fun u hu => h u (List.mem_append_left _ hu),
      ihb r.2 fun u hu => h u (List.mem_append_right _ hu)]

theorem callAll_grew (t : Team γ σ ρ) (phase : Phase) (depth : Int) (position : Position)
    (r : ρ) (p : Pass) (c : γ) (q : Pass)
    (h : (t.callAll phase depth position r p c).pass = .ok q) :
    p.Grew q (t.turns (t.callAll phase depth position r p c).seats) := by
  induction t generalizing p c q with
  | leaf v => exact Seat.serve_grew h
  | pair a b iha ihb =>
    simp only [callAll] at h ⊢
    rcases Called.andThen_cases h with ⟨hfirst, -, heq⟩ | ⟨p', hfirst, -, hsecond, heq⟩
    · rw [heq]
      exact (iha r.1 p c q hfirst).append_right _
    · rw [heq]
      exact (iha r.1 p c p' hfirst).trans (ihb r.2 p' _ q hsecond)

/-- Visitors that are all paused are not called. -/
theorem callAll_aside (phase : Phase) (position : Position) (t : Team γ σ ρ) (r : ρ) (p : Pass)
    (c : γ) (h : ∀ u ∈ t.turns r, u.resumed depth ≠ .visiting) :
    t.callAll phase depth position r p c = ⟨.ok p, c, r⟩ := by
  induction t with
  | leaf v => exact Seat.serve_aside phase v position p c (h _ (List.mem_singleton_self _))
  | pair a b iha ihb =>
    simp only [callAll, iha r.1 fun u hu => h u (List.mem_append_left _ hu)]
    cases hdeleted : p.isDeleted with
    | true => exact Called.andThen_deleted rfl hdeleted
    | false =>
      rw [Called.andThen_ok rfl hdeleted, ihb r.2 fun u hu => h u (List.mem_append_right _ hu)]

/-- Visitors that edit nothing do not care about the edits of others. -/
theorem callAll_silent (depth : Int) (position : Position) (t : Team γ σ ρ)
    (h : t.Never phase Signal.IsEdit) (r : ρ) (n : Node) (c : γ) :
    ∃ (result : Except Error Unit) (c' : γ) (r' : ρ), ∀ p : Pass, p.node = n →
      p.isDeleted = false →
      t.callAll phase depth position r p c = ⟨result.map fun _ => p, c', r'⟩ := by
  induction t generalizing c with
  | leaf v =>
    obtain ⟨result, c', seat', hserve⟩ := Seat.serve_silent h depth position r n c
    exact ⟨result, c', seat', fun p hn _ => hserve p hn⟩
  | pair a b iha ihb =>
    obtain ⟨result, c', r₁, hfirst⟩ := iha h.1 r.1 c
    cases result with
    | error e =>
      refine ⟨.error e, c', (r₁, r.2), fun p hn hkept => ?_⟩
      simp only [callAll, hfirst p hn hkept]
      rfl
    | ok =>
      obtain ⟨result, c'', r₂, hsecond⟩ := ihb h.2 r.2 c'
      refine ⟨result, c'', (r₁, r₂), fun p hn hkept => ?_⟩
      simp only [callAll, hfirst p hn hkept]
      rw [Called.andThen_ok rfl hkept, hsecond p hn hkept]

/-- Visitors whose edits are heeded, or that make none, do to a pass what they do to one of
their own. -/
theorem callAll_absorb (depth : Int) (position : Position) (t : Team γ σ ρ) {p : Pass}
    (h : p.edit = none ∨ t.Never phase Signal.IsEdit) (hp : p.isDeleted = false) (r : ρ)
    (c : γ) :
    ∃ pass c' r', t.callAll phase depth position r (.start p.node) c = ⟨pass, c', r'⟩ ∧
      t.callAll phase depth position r p c = ⟨pass.map p.absorb, c', r'⟩ ∧
      ∀ q, pass = .ok q → (p.absorb q).isDeleted = q.isDeleted := by
  by_cases hedit : p.edit = none
  · have habsorb : ∀ q, p.absorb q = q := fun q => if_pos hedit
    refine ⟨_, _, _, rfl, ?_, fun q _ => by rw [habsorb]⟩
    rw [← Pass.eq_start hedit, show p.absorb = id from funext habsorb, Except.map_id]
    rfl
  · have habsorb : ∀ q, p.absorb q = p := fun q => if_neg hedit
    obtain ⟨result, c', r', hsilent⟩ :=
      t.callAll_silent depth position (h.resolve_left hedit) r p.node c
    refine ⟨_, _, _, hsilent (.start p.node) rfl rfl, ?_, ?_⟩
    · rw [hsilent p rfl hp]
      cases result with
      | error e => rfl
      | ok => exact congrArg (Called.mk · c' r') (congrArg Except.ok (habsorb _).symm)
    · intro q hq
      cases result with
      | error e => cases hq
      | ok =>
        cases hq
        rw [habsorb, hp]
        rfl

theorem callAll_kept (t : Team γ σ ρ) (h : t.Never phase Signal.IsDelete) (r : ρ) (p q : Pass)
    (c : γ) (hp : p.isDeleted = false)
    (hq : (t.callAll phase depth position r p c).pass = .ok q) : q.isDeleted = false := by
  induction t generalizing p q c with
  | leaf v => exact Seat.serve_kept h hp hq
  | pair a b iha ihb =>
    simp only [callAll] at hq
    rcases Called.andThen_cases hq with ⟨hfirst, -, -⟩ | ⟨p', -, hkept, hsecond, -⟩
    · exact iha h.1 r.1 p q c hp hfirst
    · exact ihb h.2 r.2 p' q _ hkept hsecond

end Team
end QueryDoc
