import QueryDoc.Proofs.Visit.Lockstep
import QueryDoc.Proofs.Visit.Team

/-! Nested pairs in step with the same visitors side by side. A pair counts the nodes that it
entered, and its visitors wait by that count. As long as nobody overrules a pair inside of
another one, the count is how deep the node is, and so the visitors do what they do side by
side. -/
namespace QueryDoc

/-! ## Waiting within a level -/

namespace Turn

/-- Waits for no node deeper than a level. -/
def Within (turn : Turn) (level : Nat) : Prop := ∀ depth, turn = .skipping depth → depth ≤ level

variable {turn : Turn} {level : Nat}

instance (turn : Turn) (level : Nat) : Decidable (turn.Within level) :=
  match turn with
  | .visiting | .stopped => isTrue nofun
  | .skipping depth =>
    decidable_of_iff (depth ≤ level) ⟨by rintro h _ ⟨⟩; exact h, fun h => h depth rfl⟩

theorem within_visiting (level : Nat) : visiting.Within level := by
  rintro depth ⟨⟩

theorem within_stopped (level : Nat) : stopped.Within level := by
  rintro depth ⟨⟩

theorem Within.mono {level' : Nat} (h : turn.Within level) (hle : level ≤ level') :
    turn.Within level' := by
  intro depth hturn
  have := h depth hturn
  omega

theorem Within.resumed_succ (h : turn.Within level) : turn.resumed (level + 1) = turn := by
  apply resumed_of_ne
  intro hturn
  have := h _ hturn
  omega

theorem Within.closes (h : turn.Within (level + 1)) :
    (turn.resumed (level + 1)).Within level := by
  intro depth hturn
  by_cases hwaits : turn = .skipping (level + 1)
  · rw [hwaits, resumed_self] at hturn
    cases hturn
  · rw [resumed_of_ne hwaits] at hturn
    have hle := h depth hturn
    have hne : depth ≠ level + 1 := by
      rintro rfl
      exact hwaits hturn
    omega

end Turn

theorem Seat.serve_within {γ σ : Type} (phase : Phase) {v : Visitor γ σ} {level : Nat}
    {position : Position} {seat : Seat σ} {p : Pass} {c : γ}
    (h : seat.turn.Within (level + 1)) :
    (seat.serve phase v (level + 1) position p c).seats.turn.Within (level + 1) := by
  unfold serve
  by_cases hturn : (seat.opened phase (level + 1)).turn = .visiting
  · cases hsignal : (v.hook phase p.node position c (seat.opened phase (level + 1)).state).signal with
    | error e =>
      rw [call_error _ hturn hsignal]
      exact Turn.within_visiting _
    | ok signal =>
      rw [call_ok _ hturn hsignal, Pass.apply_turn]
      intro depth hdepth
      cases signal <;> cases phase <;> cases hdepth
      exact Int.le_refl _
  · rw [call_aside _ hturn]
    cases phase with
    | entering => exact h
    | leaving => exact h.closes.mono (Nat.le_succ _)

/-! ## In step -/

/-- A pair that counts some open nodes, and of which not both visitors have stopped. -/
structure Pair.Counts {σ τ : Type} (p : Pair σ τ) (level : Nat) (first : Turn → σ → Prop)
    (second : Turn → τ → Prop) : Prop where
  depth : p.depth = level
  going : ¬ (p.first.turn = .stopped ∧ p.second.turn = .stopped)
  first : first p.first.turn p.first.state
  second : second p.second.turn p.second.state

namespace Team

variable {γ σ ρ : Type}

/-- The visitors' own states are the same. -/
def Same {σ ρ : Type} : Team γ σ ρ → σ → ρ → Prop
  | .leaf _, s, seat => seat.state = s
  | .pair a b, p, (r, r') => a.Same p.first.state r ∧ b.Same p.second.state r'

/-- A team in its turn is in step with the same visitors side by side. A pair that waits for
a node keeps the count that it had there. -/
def InStep {σ ρ : Type} : Team γ σ ρ → Nat → Turn → σ → ρ → Prop
  | .leaf _, level, turn, s, seat => seat = ⟨turn, s⟩ ∧ turn.Within level
  | .pair a b, level, .visiting, p, (r, r') =>
    p.Counts level (a.InStep level · · r) (b.InStep level · · r')
  | .pair a b, level, .skipping depth, p, (r, r') =>
    ∃ count : Nat, depth = count ∧ count ≤ level ∧
      p.Counts count (a.InStep count · · r) (b.InStep count · · r') ∧
      p.first.turn ≠ .visiting ∧ p.second.turn ≠ .visiting
  | .pair a b, level, .stopped, p, (r, r') =>
    a.InStep level .stopped p.first.state r ∧ b.InStep level .stopped p.second.state r'

/-- Both teams of a pair are in step, at the level or where the pair waits, and they are paused
if the pair is. -/
theorem InStep.parts {τ ς : Type} {a : Team γ σ ρ} {b : Team γ τ ς} {level : Nat} {turn : Turn}
    {p : Pair σ τ} {r : ρ × ς} (h : (Team.pair a b).InStep level turn p r) :
    ∃ count first second, count ≤ level ∧ a.InStep count first p.first.state r.1 ∧
      b.InStep count second p.second.state r.2 ∧
      (turn ≠ .visiting → first ≠ .visiting ∧ second ≠ .visiting) := by
  cases turn with
  | visiting =>
    exact ⟨level, _, _, Nat.le_refl _, h.first, h.second, fun hturn => absurd rfl hturn⟩
  | skipping depth =>
    obtain ⟨count, -, hle, hcounts, hpaused⟩ := h
    exact ⟨count, _, _, hle, hcounts.first, hcounts.second, fun _ => hpaused⟩
  | stopped => exact ⟨level, _, _, Nat.le_refl _, h.1, h.2, fun hturn => ⟨hturn, hturn⟩⟩

theorem InStep.same {t : Team γ σ ρ} {level : Nat} {turn : Turn} {s : σ} {r : ρ}
    (h : t.InStep level turn s r) : t.Same s r := by
  induction t generalizing level turn with
  | leaf v =>
    obtain ⟨rfl, -⟩ := h
    rfl
  | pair a b iha ihb =>
    obtain ⟨count, first, second, -, hfirst, hsecond, -⟩ := h.parts
    exact ⟨iha hfirst, ihb hsecond⟩

theorem InStep.within {t : Team γ σ ρ} {level : Nat} {turn : Turn} {s : σ} {r : ρ}
    (h : t.InStep level turn s r) : ∀ u ∈ t.turns r, u.Within level := by
  induction t generalizing level turn with
  | leaf v =>
    obtain ⟨rfl, hwithin⟩ := h
    exact List.forall_mem_singleton.mpr hwithin
  | pair a b iha ihb =>
    obtain ⟨count, first, second, hle, hfirst, hsecond, -⟩ := h.parts
    intro u hu
    rcases List.mem_append.mp hu with hu | hu
    · exact (iha hfirst u hu).mono hle
    · exact (ihb hsecond u hu).mono hle

/-- All have stopped just where the team has. -/
theorem InStep.stopped_iff {t : Team γ σ ρ} {level : Nat} {turn : Turn} {s : σ} {r : ρ}
    (h : t.InStep level turn s r) : (∀ u ∈ t.turns r, u = .stopped) ↔ turn = .stopped := by
  induction t generalizing level turn with
  | leaf v =>
    obtain ⟨rfl, -⟩ := h
    simp only [turns, List.mem_singleton, forall_eq]
  | pair a b iha ihb =>
    have hturns : (∀ u ∈ (Team.pair a b).turns r, u = .stopped) ↔
        (∀ u ∈ a.turns r.1, u = .stopped) ∧ ∀ u ∈ b.turns r.2, u = .stopped :=
      List.forall_mem_append
    rw [hturns]
    cases turn with
    | visiting =>
      rw [iha h.first, ihb h.second]
      exact ⟨fun hstop => absurd hstop h.going, fun hstop => by cases hstop⟩
    | skipping depth =>
      obtain ⟨count, -, -, hcounts, -⟩ := h
      rw [iha hcounts.first, ihb hcounts.second]
      exact ⟨fun hstop => absurd hstop hcounts.going, fun hstop => by cases hstop⟩
    | stopped => rw [iha h.1, ihb h.2]; simp only [and_self]

/-- Nobody takes part in a team that does not. -/
theorem InStep.paused {t : Team γ σ ρ} {level : Nat} {turn : Turn} {s : σ} {r : ρ}
    (h : t.InStep level turn s r) (hturn : turn ≠ .visiting) :
    ∀ u ∈ t.turns r, u ≠ .visiting := by
  induction t generalizing level turn with
  | leaf v =>
    obtain ⟨rfl, -⟩ := h
    exact List.forall_mem_singleton.mpr hturn
  | pair a b iha ihb =>
    obtain ⟨count, first, second, -, hfirst, hsecond, hpaused⟩ := h.parts
    intro u hu
    rcases List.mem_append.mp hu with hu | hu
    · exact iha hfirst (hpaused hturn).1 u hu
    · exact ihb hsecond (hpaused hturn).2 u hu

/-- A team that is paused stays in step at any level that holds the node it waits for. -/
theorem InStep.of_paused {t : Team γ σ ρ} {level level' : Nat} {turn : Turn} {s : σ} {r : ρ}
    (h : t.InStep level turn s r) (hturn : turn ≠ .visiting) (hwithin : turn.Within level') :
    t.InStep level' turn s r := by
  induction t generalizing level turn with
  | leaf v => exact ⟨h.1, hwithin⟩
  | pair a b iha ihb =>
    cases turn with
    | visiting => exact absurd rfl hturn
    | skipping depth =>
      obtain ⟨count, rfl, -, hcounts⟩ := h
      exact ⟨count, rfl, Int.ofNat_le.mp (hwithin _ rfl), hcounts⟩
    | stopped => exact ⟨iha h.1 hturn (Turn.within_stopped _), ihb h.2 hturn (Turn.within_stopped _)⟩

theorem InStep.turn_within {t : Team γ σ ρ} {level : Nat} {turn : Turn} {s : σ} {r : ρ}
    (h : t.InStep level turn s r) : turn.Within level := by
  cases t with
  | leaf v => exact h.2
  | pair a b =>
    cases turn with
    | visiting => exact Turn.within_visiting _
    | skipping depth =>
      obtain ⟨count, rfl, hle, -⟩ := h
      rintro _ ⟨⟩
      exact Int.ofNat_le.mpr hle
    | stopped => exact Turn.within_stopped _

/-- A pair that waits for the node at the level resumes with the count of that node. -/
theorem InStep.resumes {τ ς : Type} {a : Team γ σ ρ} {b : Team γ τ ς} {level : Nat}
    {turn : Turn} {p : Pair σ τ} {r : ρ × ς}
    (h : (Team.pair a b).InStep (level + 1) turn p r)
    (hturn : turn.resumed (level + 1) = .visiting) :
    (Team.pair a b).InStep (level + 1) .visiting p r := by
  cases turn with
  | visiting => exact h
  | skipping depth =>
    obtain ⟨count, rfl, hle, hcounts, -⟩ := h
    by_cases hcount : (count : Int) = level + 1
    · have : count = level + 1 := by omega
      rwa [this] at hcounts
    · rw [Turn.resumed_of_ne (by rintro ⟨⟩; exact hcount rfl)] at hturn
      cases hturn
  | stopped => cases hturn

theorem same_resumed (depth : Int) (t : Team γ σ ρ) (s : σ) (r : ρ) :
    t.Same s (t.resumed depth r) ↔ t.Same s r := by
  induction t with
  | leaf v => exact Iff.rfl
  | pair a b iha ihb => simp only [Same, resumed, iha, ihb]

theorem same_fresh (t : Team γ σ ρ) (s : σ) (r : ρ) : t.Same s (t.fresh r) ↔ t.Same s r := by
  induction t with
  | leaf v => exact Iff.rfl
  | pair a b iha ihb => simp only [Same, fresh, iha, ihb]

/-- A single visitor is done with a node as soon as it is closed. -/
theorem InStep.leaf_closes {t : Team γ σ ρ} (ht : ¬ t.IsPair) {level : Nat} {turn : Turn}
    {s : σ} {r : ρ} (h : t.InStep (level + 1) turn s r) :
    t.InStep level (turn.resumed (level + 1)) s (t.resumed (level + 1) r) := by
  cases t with
  | leaf v =>
    obtain ⟨rfl, hwithin⟩ := h
    exact ⟨rfl, hwithin.closes⟩
  | pair a b => exact absurd trivial ht

/-! ## Between nodes -/

/-- What is left of being in step after a node at a level was closed: of a walk that is over,
the visitors' own states. -/
def Settled (t : Team γ σ ρ) (level : Nat) (turn : Turn) (s : σ) (r : ρ) : Prop :=
  t.Same s r ∧ (0 < level → t.InStep level turn s r)

/-- What it takes to enter a node at a level in step: at the root everything begins anew. -/
def Ready (t : Team γ σ ρ) (level : Nat) (turn : Turn) (s : σ) (r : ρ) : Prop :=
  t.Settled level turn s r ∧ (level = 0 → turn = .visiting ∧ ∀ u ∈ t.turns r, u = .visiting)

variable {t : Team γ σ ρ} {level : Nat} {turn : Turn} {s : σ} {r : ρ}

theorem InStep.settled (h : t.InStep level turn s r) : t.Settled level turn s r :=
  ⟨h.same, fun _ => h⟩

/-- Nobody waits for a node that is not open. -/
theorem Ready.within (h : t.Ready level turn s r) : ∀ u ∈ t.turns r, u.Within level := by
  intro u hu
  rcases Nat.eq_zero_or_pos level with hzero | hpos
  · rw [(h.2 hzero).2 u hu]
    exact Turn.within_visiting level
  · exact (h.1.2 hpos).within u hu

/-- Closing a deeper node means nothing to those who did not enter it. -/
theorem Ready.settled (h : t.Ready level turn s r) :
    t.Settled level (turn.resumed (level + 1)) s (t.resumed (level + 1) r) := by
  refine ⟨(same_resumed _ t s r).mpr h.1.1, fun hlevel => ?_⟩
  have hstep := h.1.2 hlevel
  rw [hstep.turn_within.resumed_succ,
    t.resumed_of_aside r fun u hu => (hstep.within u hu).resumed_succ]
  exact hstep

/-- Whoever is paused when a node is entered was so at a node above. -/
theorem Ready.inStep_of_paused (h : t.Ready level turn s r) (hturn : turn ≠ .visiting) :
    t.InStep level turn s r := by
  apply h.1.2
  rcases Nat.eq_zero_or_pos level with hzero | hpos
  · exact absurd (h.2 hzero).1 hturn
  · exact hpos

theorem ready_fresh (h : t.Same s r) : t.Ready 0 .visiting s (t.fresh r) :=
  ⟨⟨(same_fresh t s r).mpr h, fun h => absurd h (Nat.lt_irrefl 0)⟩,
    fun _ => ⟨rfl, t.turns_fresh r⟩⟩

end Team

/-! ## Calls in step -/

section Calls
variable {γ σ τ ρ ς : Type}

/-- A team that a pair called for a node that it enters, against the same visitors side by
side. -/
inductive Team.EnterFollows (t : Team γ σ ρ) (level : Nat) :
    Called γ (Seat σ) → Called γ ρ → Prop
  | error {e : Error} {c : γ} {seat : Seat σ} {r : ρ} (same : t.Same seat.state r) :
    t.EnterFollows level ⟨.error e, c, seat⟩ ⟨.error e, c, r⟩
  | deleted {q : Pass} {c : γ} {seat : Seat σ} {r : ρ} (hdeleted : q.isDeleted = true)
      (settled : t.Settled level (seat.turn.resumed (level + 1)) seat.state
        (t.resumed (level + 1) r)) :
    t.EnterFollows level ⟨.ok q, c, seat⟩ ⟨.ok q, c, r⟩
  | kept {q : Pass} {c : γ} {seat : Seat σ} {r : ρ} (hkept : q.isDeleted = false)
      (step : t.InStep (level + 1) seat.turn seat.state r)
      (visits : seat.turn = .visiting → .visiting ∈ t.turns r) :
    t.EnterFollows level ⟨.ok q, c, seat⟩ ⟨.ok q, c, r⟩

/-- The same for a node that it leaves. -/
inductive Team.LeaveFollows (t : Team γ σ ρ) (level : Nat) :
    Called γ (Seat σ) → Called γ ρ → Prop
  | error {e : Error} {c : γ} {seat : Seat σ} {r : ρ} (same : t.Same seat.state r) :
    t.LeaveFollows level ⟨.error e, c, seat⟩ ⟨.error e, c, r⟩
  | ok {q : Pass} {c : γ} {seat : Seat σ} {r : ρ}
      (step : t.InStep level (seat.turn.resumed (level + 1)) seat.state
        (t.resumed (level + 1) r)) :
    t.LeaveFollows level ⟨.ok q, c, seat⟩ ⟨.ok q, c, r⟩

/-- What a team answers to a node that it enters, against the same visitors side by side. -/
inductive Team.EnterReplies (t : Team γ σ ρ) (level : Nat) : Reply γ σ → Called γ ρ → Prop
  | error {e : Error} {c : γ} {s : σ} {r : ρ} (same : t.Same s r) :
    t.EnterReplies level ⟨.error e, c, s⟩ ⟨.error e, c, r⟩
  | deleted {q : Pass} {c : γ} {s : σ} {r : ρ} (hdeleted : q.isDeleted = true)
      (settled : t.Settled level .visiting s (t.resumed (level + 1) r)) :
    t.EnterReplies level ⟨.ok (q.verdict (t.turns r)), c, s⟩ ⟨.ok q, c, r⟩
  | kept {q : Pass} {c : γ} {s : σ} {r : ρ} (hkept : q.isDeleted = false)
      (step : t.InStep (level + 1) ((q.verdict (t.turns r)).turnAfter (some (level + 1))) s r) :
    t.EnterReplies level ⟨.ok (q.verdict (t.turns r)), c, s⟩ ⟨.ok q, c, r⟩

/-- The same for a node that it leaves, where to skip says nothing. -/
inductive Team.LeaveReplies (t : Team γ σ ρ) (level : Nat) : Reply γ σ → Called γ ρ → Prop
  | error {e : Error} {c : γ} {s : σ} {r : ρ} (same : t.Same s r) :
    t.LeaveReplies level ⟨.error e, c, s⟩ ⟨.error e, c, r⟩
  | ok {q : Pass} {signal : Signal} {c : γ} {s : σ} {r : ρ}
      (alike : signal.upward = (q.verdict (t.turns (t.resumed (level + 1) r))).upward)
      (step : t.InStep level (signal.turnAfter none) s (t.resumed (level + 1) r)) :
    t.LeaveReplies level ⟨.ok signal, c, s⟩ ⟨.ok q, c, r⟩

/-- The edits of a team in a phase all count if nobody edited the node before, and if the team
is a single visitor or makes none then others' edits are no matter. -/
def Team.Heeded (t : Team γ σ ρ) (phase : Phase) (p : Pass) : Prop :=
  t.IsPair → p.edit = none ∨ t.Never phase Signal.IsEdit

/-- A visitor is in step with a team side by side on entering nodes. -/
def Team.EntersInStep (t : Team γ σ ρ) (w : Visitor γ σ) : Prop :=
  ∀ level (position : Position) c (seat : Seat σ) r p, position.ancestors.length = level →
    t.Ready level seat.turn seat.state r → p.isDeleted = false → t.Heeded .entering p →
    t.EnterFollows level (seat.enter w (level + 1) position p c)
      (t.callAll .entering (level + 1) position r p c)

/-- The same on leaving nodes. -/
def Team.LeavesInStep (t : Team γ σ ρ) (w : Visitor γ σ) : Prop :=
  ∀ level (position : Position) c (seat : Seat σ) r p, position.ancestors.length = level →
    t.InStep (level + 1) seat.turn seat.state r → p.isDeleted = false → t.Heeded .leaving p →
    t.LeaveFollows level (seat.leave w (level + 1) position p c)
      (t.callAll .leaving (level + 1) position r p c)

/-! ## Single visitors -/

theorem Team.leaf_enters (v : Visitor γ σ) : (Team.leaf v).EntersInStep v := by
  rintro level position c seat r p - hready - -
  have hwithin : seat.turn.Within level := by
    by_cases hturn : seat.turn = .visiting
    · rw [hturn]
      exact Turn.within_visiting _
    · exact (hready.inStep_of_paused hturn).2
  obtain rfl : seat = r := by
    symm
    by_cases hturn : seat.turn = .visiting
    · rcases Nat.eq_zero_or_pos level with hzero | hpos
      · have hr : r.turn = .visiting := (hready.2 hzero).2 _ (List.mem_singleton_self _)
        obtain ⟨turn, state⟩ := r
        obtain ⟨turn', state'⟩ := seat
        obtain rfl : state = state' := hready.1.1
        exact congrArg (Seat.mk · state) (hr.trans hturn.symm)
      · exact (hready.1.2 hpos).1
    · exact (hready.inStep_of_paused hturn).1
  have hwithin' : (seat.enter v (level + 1) position p c).seats.turn.Within (level + 1) :=
    Seat.serve_within .entering (hwithin.mono (Nat.le_succ _))
  change (Team.leaf v).EnterFollows level _ (seat.enter v (level + 1) position p c)
  generalize seat.enter v (level + 1) position p c = called at hwithin' ⊢
  obtain ⟨pass, c, seat⟩ := called
  cases pass with
  | error e => exact .error rfl
  | ok q =>
    cases hdeleted : q.isDeleted with
    | true => exact .deleted hdeleted ⟨rfl, fun _ => ⟨rfl, hwithin'.closes⟩⟩
    | false =>
      exact .kept hdeleted ⟨rfl, hwithin'⟩ fun hturn => List.mem_singleton.mpr hturn.symm

theorem Team.leaf_leaves (v : Visitor γ σ) : (Team.leaf v).LeavesInStep v := by
  rintro level position c seat r p - ⟨rfl, hwithin⟩ - -
  have hwithin' : (seat.leave v (level + 1) position p c).seats.turn.Within (level + 1) :=
    Seat.serve_within .leaving hwithin
  change (Team.leaf v).LeaveFollows level _ (seat.leave v (level + 1) position p c)
  generalize seat.leave v (level + 1) position p c = called at hwithin' ⊢
  obtain ⟨pass, c, seat⟩ := called
  cases pass with
  | error e => exact .error rfl
  | ok q => exact .ok ⟨rfl, hwithin'.closes⟩

end Calls

/-! ## Pairs -/

section Pairs
variable {γ σ τ ρ ς : Type} {a : Team γ σ ρ} {b : Team γ τ ς} {wa : Visitor γ σ}
variable {wb : Visitor γ τ} {level : Nat} {position : Position} {n : Node} {c : γ}

namespace Team

/-- Both members of a pair after a node was entered, against the same visitors side by side. -/
inductive BothEnter (a : Team γ σ ρ) (b : Team γ τ ς) (level : Nat) :
    Called γ (Seat σ × Seat τ) → Called γ (ρ × ς) → Prop
  | error {e : Error} {c : γ} {first : Seat σ} {second : Seat τ} {r : ρ} {r' : ς}
      (same : a.Same first.state r) (same' : b.Same second.state r') :
    BothEnter a b level ⟨.error e, c, (first, second)⟩ ⟨.error e, c, (r, r')⟩
  | deleted {q : Pass} {c : γ} {first : Seat σ} {second : Seat τ} {r : ρ} {r' : ς}
      (hdeleted : q.isDeleted = true)
      (settled : a.Settled level (first.turn.resumed (level + 1)) first.state
        (a.resumed (level + 1) r))
      (settled' : b.Settled level (second.turn.resumed (level + 1)) second.state
        (b.resumed (level + 1) r')) :
    BothEnter a b level ⟨.ok q, c, (first, second)⟩ ⟨.ok q, c, (r, r')⟩
  | kept {q : Pass} {c : γ} {first : Seat σ} {second : Seat τ} {r : ρ} {r' : ς}
      (hkept : q.isDeleted = false)
      (step : a.InStep (level + 1) first.turn first.state r)
      (visits : first.turn = .visiting → .visiting ∈ a.turns r)
      (step' : b.InStep (level + 1) second.turn second.state r')
      (visits' : second.turn = .visiting → .visiting ∈ b.turns r') :
    BothEnter a b level ⟨.ok q, c, (first, second)⟩ ⟨.ok q, c, (r, r')⟩

theorem Steady.heeded (hsteady : (Team.pair a b).Steady) (phase : Phase) (depth : Int)
    (position : Position) (r : ρ) (n : Node) (c : γ) (q : Pass)
    (hq : (a.callAll phase depth position r (.start n) c).pass = .ok q) : b.Heeded phase q := by
  intro hpair
  rcases (hsteady.2.2.2 hpair).2 phase with hnever | hnever
  · obtain ⟨result, c', r', hsilent⟩ := a.callAll_silent depth position hnever r n c
    rw [hsilent (.start n) rfl rfl] at hq
    cases result with
    | error e => cases hq
    | ok =>
      cases hq
      exact .inl rfl
  · exact .inr hnever

theorem both_enter (ha : a.EntersInStep wa) (hb : b.EntersInStep wb)
    (hsteady : (Team.pair a b).Steady) (hlevel : position.ancestors.length = level)
    {first : Seat σ} {second : Seat τ} {r : ρ × ς}
    (hfirst : a.Ready level first.turn first.state r.1)
    (hsecond : b.Ready level second.turn second.state r.2) (n : Node) (c : γ) :
    BothEnter a b level
      ((first.enter wa (level + 1) position (.start n) c).andThen second
        (·.enter wb (level + 1) position))
      ((Team.pair a b).callAll .entering (level + 1) position r (.start n) c) := by
  have hcalls := ha level position c first r.1 (.start n) hlevel hfirst rfl fun _ => .inl rfl
  have hheeded := hsteady.heeded .entering (level + 1) position r.1 n c
  simp only [callAll]
  generalize first.enter wa (level + 1) position (.start n) c = called at hcalls ⊢
  generalize a.callAll .entering (level + 1) position r.1 (.start n) c = flat at hcalls hheeded ⊢
  cases hcalls with
  | error same => exact .error same hsecond.1.1
  | deleted hdeleted settled =>
    rw [Called.andThen_deleted rfl hdeleted, Called.andThen_deleted rfl hdeleted]
    exact .deleted hdeleted settled hsecond.settled
  | @kept q c₁ seat₁ r₁ hkept step visits =>
    rw [Called.andThen_ok rfl hkept, Called.andThen_ok rfl hkept]
    have hcalls := hb level position c₁ second r.2 q hlevel hsecond hkept (hheeded q rfl)
    -- Only a single visitor can be first where the second one deletes.
    have hleaf : ∀ q', (b.callAll .entering (level + 1) position r.2 q c₁).pass = .ok q' →
        q'.isDeleted = true → ¬ a.IsPair := by
      intro q' hq' hdeleted hpair
      have hkept' := b.callAll_kept (hsteady.2.2.1 hpair) r.2 q q' c₁ hkept hq'
      cases hdeleted.symm.trans hkept'
    generalize second.enter wb (level + 1) position q c₁ = called at hcalls ⊢
    generalize b.callAll .entering (level + 1) position r.2 q c₁ = flat at hcalls hleaf ⊢
    cases hcalls with
    | error same => exact .error step.same same
    | deleted hdeleted settled =>
      exact .deleted hdeleted (step.leaf_closes (hleaf _ rfl hdeleted)).settled settled
    | kept hkept step' visits' => exact .kept hkept step visits step' visits'

theorem InStep.ready {t : Team γ σ ρ} {turn : Turn} {s : σ} {r : ρ} (hlevel : 0 < level)
    (h : t.InStep level turn s r) : t.Ready level turn s r :=
  ⟨h.settled, fun hzero => by omega⟩

theorem Ready.opened {p : Pair σ τ} {r : ρ × ς}
    (h : (Team.pair a b).Ready level .visiting p r) (hlevel : position.ancestors.length = level) :
    (p.opened position).depth = level ∧
      a.Ready level (p.opened position).first.turn (p.opened position).first.state r.1 ∧
      b.Ready level (p.opened position).second.turn (p.opened position).second.state r.2 := by
  rcases Nat.eq_zero_or_pos level with rfl | hpos
  · have hopened : p.opened position = p.restart :=
      if_pos (List.isEmpty_iff.mpr (List.length_eq_zero_iff.mp hlevel))
    obtain ⟨⟨⟨hfirst, hsecond⟩, -⟩, hturns⟩ := h
    have hvisits := (hturns rfl).2
    rw [hopened]
    exact ⟨rfl,
      ⟨⟨hfirst, nofun⟩, fun _ => ⟨rfl, fun u hu => hvisits u (List.mem_append_left _ hu)⟩⟩,
      ⟨⟨hsecond, nofun⟩, fun _ => ⟨rfl, fun u hu => hvisits u (List.mem_append_right _ hu)⟩⟩⟩
  · have hopened : p.opened position = p := by
      refine if_neg fun hempty => ?_
      rw [List.isEmpty_iff.mp hempty] at hlevel
      exact absurd hlevel (Nat.ne_of_lt hpos)
    have hcounts := h.1.2 hpos
    rw [hopened]
    exact ⟨hcounts.depth, hcounts.first.ready hpos, hcounts.second.ready hpos⟩

/-- The two members have stopped just where all visitors have. -/
theorem both_stopped_iff {first : Turn} {second : Turn} {s : σ} {s' : τ} {r : ρ × ς}
    (ha : a.InStep level first s r.1) (hb : b.InStep level second s' r.2) :
    (first = .stopped ∧ second = .stopped) ↔
      ∀ u ∈ (Team.pair a b).turns r, u = .stopped := by
  rw [← ha.stopped_iff, ← hb.stopped_iff]
  exact List.forall_mem_append.symm

/-- After a node was entered, neither member takes part just where nobody does. -/
theorem both_paused_iff {first : Turn} {second : Turn} {s : σ} {s' : τ} {r : ρ × ς}
    (ha : a.InStep level first s r.1) (hvisits : first = .visiting → .visiting ∈ a.turns r.1)
    (hb : b.InStep level second s' r.2) (hvisits' : second = .visiting → .visiting ∈ b.turns r.2) :
    (first ≠ .visiting ∧ second ≠ .visiting) ↔
      ∀ u ∈ (Team.pair a b).turns r, u ≠ .visiting := by
  have hturns : (∀ u ∈ (Team.pair a b).turns r, u ≠ .visiting) ↔
      (∀ u ∈ a.turns r.1, u ≠ .visiting) ∧ ∀ u ∈ b.turns r.2, u ≠ .visiting :=
    List.forall_mem_append
  rw [hturns]
  constructor
  · rintro ⟨hfirst, hsecond⟩
    exact ⟨ha.paused hfirst, hb.paused hsecond⟩
  · rintro ⟨hfirst, hsecond⟩
    exact ⟨fun h => hfirst _ (hvisits h) rfl, fun h => hsecond _ (hvisits' h) rfl⟩

/-- A pair that closes a node on which both of its members are settled. -/
theorem InStep.close {first : Seat σ} {second : Seat τ} {r : ρ × ς}
    (ha : a.InStep level (first.turn.resumed (level + 1)) first.state (a.resumed (level + 1) r.1))
    (hb : b.InStep level (second.turn.resumed (level + 1)) second.state
      (b.resumed (level + 1) r.2))
    (hgoing : ¬ ∀ u ∈ (Team.pair a b).turns ((Team.pair a b).resumed (level + 1) r),
      u = .stopped) :
    (Team.pair a b).InStep level .visiting (.close ⟨level + 1, first, second⟩)
      ((Team.pair a b).resumed (level + 1) r) where
  depth := Int.add_sub_cancel _ 1
  going := fun hstop => hgoing ((both_stopped_iff ha hb).mp hstop)
  first := ha
  second := hb

theorem mem_turns_resumed {t : Team γ σ ρ} {r : ρ} (depth : Int)
    (h : .visiting ∈ t.turns r) : .visiting ∈ t.turns (t.resumed depth r) := by
  rw [turns_resumed]
  exact List.mem_map.mpr ⟨.visiting, h, rfl⟩

theorem not_all_stopped {turns : List Turn} (h : .visiting ∈ turns) :
    ¬ ∀ u ∈ turns, u = .stopped :=
  fun hall => nomatch hall _ h

theorem pair_enterReplies (ha : a.EntersInStep wa) (hb : b.EntersInStep wb)
    (hsteady : (Team.pair a b).Steady) (hlevel : position.ancestors.length = level)
    {p : Pair σ τ} {r : ρ × ς} (hready : (Team.pair a b).Ready level .visiting p r) (n : Node)
    (c : γ) :
    (Team.pair a b).EnterReplies level ((wa.compose wb).enter n position c p)
      ((Team.pair a b).callAll .entering (level + 1) position r (.start n) c) := by
  obtain ⟨hdepth, hfirst, hsecond⟩ := hready.opened hlevel
  have hboth := both_enter ha hb hsteady hlevel hfirst hsecond n c
  have hgrew := (Team.pair a b).callAll_grew .entering (level + 1) position r (.start n) c
  have hdepth : (p.opened position).depth + 1 = level + 1 := by rw [hdepth]
  generalize hcalled : ((p.opened position).first.enter wa (level + 1) position (.start n)
    c).andThen (p.opened position).second (·.enter wb (level + 1) position) = called at hboth
  generalize (Team.pair a b).callAll .entering (level + 1) position r (.start n) c = flat
    at hboth hgrew ⊢
  cases hboth with
  | error same same' =>
    rw [Visitor.compose_enter_error hdepth hcalled rfl]
    exact .error ⟨same, same'⟩
  | @deleted q c first second r r' hdeleted settled settled' =>
    have hsignal : q.signal first.turn second.turn =
        q.verdict ((Team.pair a b).turns (r, r')) := by
      rw [Pass.verdict_deleted _ hdeleted]
      exact if_pos hdeleted
    rw [Visitor.compose_enter_ok hdepth hcalled rfl, hsignal,
      Pair.entered_closes (.inl (Pass.verdict_deleted _ hdeleted))]
    refine .deleted hdeleted ⟨⟨settled.1, settled'.1⟩, fun hpos => ?_⟩
    exact InStep.close (settled.2 hpos) (settled'.2 hpos)
      (not_all_stopped (mem_turns_resumed _ ((hgrew q rfl).mem_of_deleted hdeleted)))
  | @kept q c first second r r' hkept step visits step' visits' =>
    have hstopped := both_stopped_iff (r := (r, r')) step step'
    have hpaused := both_paused_iff (r := (r, r')) step visits step' visits'
    rw [Visitor.compose_enter_ok hdepth hcalled rfl, q.signal_eq_verdict hstopped hpaused]
    refine .kept hkept ?_
    -- While one of them goes on, the pair counts the node that it has entered.
    have hcounts : (¬ ∀ u ∈ (Team.pair a b).turns (r, r'), u = .stopped) →
        (Pair.mk (level + 1) first second).Counts (level + 1) (a.InStep (level + 1) · · r)
          (b.InStep (level + 1) · · r') :=
      fun hgoing => ⟨rfl, fun hstop => hgoing (hstopped.mp hstop), step, step'⟩
    rcases Pass.verdict_cases ((Team.pair a b).turns (r, r')) hkept with
      ⟨heq, hall⟩ | ⟨hgoing, ⟨e, hne, -, heq⟩ | ⟨-, heq, hall⟩ | ⟨-, heq, -⟩⟩
    · rw [heq, Pair.entered_closes (.inr rfl)]
      have hturns := hstopped.mpr hall
      rw [hturns.1] at step
      rw [hturns.2] at step'
      exact ⟨step, step'⟩
    · rw [Pair.entered_stays (by rw [heq]; exact fun h => hne (Signal.edit.inj h))
        (by rw [heq]; exact nofun), heq]
      exact hcounts hgoing
    · rw [Pair.entered_stays (by rw [heq]; exact nofun) (by rw [heq]; exact nofun), heq]
      have hturns := hpaused.mpr hall
      exact ⟨level + 1, rfl, Nat.le_refl _, hcounts hgoing, hturns.1, hturns.2⟩
    · rw [Pair.entered_stays (by rw [heq]; exact nofun) (by rw [heq]; exact nofun), heq]
      exact hcounts hgoing

end Team

/-- A visitor that does what a pair does as long as its count is how deep the node is. -/
structure Visitor.ActsAs (w v : Visitor γ (Pair σ τ)) : Prop where
  enter : ∀ n (position : Position) c (p : Pair σ τ),
    (p.opened position).depth = position.ancestors.length →
    w.enter n position c p = v.enter n position c p
  leave : ∀ n (position : Position) c (p : Pair σ τ),
    p.depth = position.ancestors.length + 1 → w.leave n position c p = v.leave n position c p

namespace Team

variable {w : Visitor γ (Pair σ τ)}

theorem pair_enters (ha : a.EntersInStep wa) (hb : b.EntersInStep wb)
    (hsteady : (Team.pair a b).Steady) (hw : w.ActsAs (wa.compose wb)) :
    (Team.pair a b).EntersInStep w := by
  intro level position c seat r p hlevel hready hkept hheeded
  by_cases hturn : seat.turn = .visiting
  · have hready : (Team.pair a b).Ready level .visiting seat.state r := hturn ▸ hready
    have hreplies := pair_enterReplies ha hb hsteady hlevel hready p.node c
    have hgrew := (Team.pair a b).callAll_grew .entering (level + 1) position r (.start p.node) c
    rw [← hw.enter p.node position c seat.state
      (by rw [(hready.opened hlevel).1, hlevel])] at hreplies
    obtain ⟨pass, c', r', hstart, hflat, habsorb⟩ :=
      (Team.pair a b).callAll_absorb (level + 1) position (hheeded trivial) hkept r c
    rw [hstart] at hreplies hgrew
    rw [hflat]
    generalize hreply : w.enter p.node position c seat.state = reply at hreplies
    cases hreplies with
    | error same =>
      rw [Seat.enter, Seat.call_replied_error _ hturn hreply]
      exact .error same
    | @deleted q _ _ _ hdeleted settled =>
      rw [Seat.enter, Seat.call_replied_ok _ hturn hreply, (hgrew q rfl).apply_verdict,
        Pass.verdict_deleted _ hdeleted]
      exact .deleted ((habsorb q rfl).trans hdeleted) settled
    | @kept q _ _ _ hkept step =>
      rw [Seat.enter, Seat.call_replied_ok _ hturn hreply, (hgrew q rfl).apply_verdict]
      exact .kept ((habsorb q rfl).trans hkept) step (hgrew q rfl).mem_of_turnAfter
  · have hstep := hready.inStep_of_paused hturn
    have hpaused : ∀ u ∈ (Team.pair a b).turns r, u.resumed (level + 1) ≠ .visiting := by
      intro u hu
      rw [(hstep.within u hu).resumed_succ]
      exact hstep.paused hturn u hu
    rw [Seat.enter, Seat.call_aside _ hturn, callAll_aside _ _ _ _ _ _ hpaused]
    exact .kept hkept (hstep.of_paused hturn (hstep.turn_within.mono (Nat.le_succ _)))
      fun h => absurd h hturn

/-- Both members of a pair after a node was left, against the same visitors side by side. -/
inductive BothLeave (a : Team γ σ ρ) (b : Team γ τ ς) (level : Nat) :
    Called γ (Seat σ × Seat τ) → Called γ (ρ × ς) → Prop
  | error {e : Error} {c : γ} {first : Seat σ} {second : Seat τ} {r : ρ} {r' : ς}
      (same : a.Same first.state r) (same' : b.Same second.state r') :
    BothLeave a b level ⟨.error e, c, (first, second)⟩ ⟨.error e, c, (r, r')⟩
  | ok {q : Pass} {c : γ} {first : Seat σ} {second : Seat τ} {r : ρ} {r' : ς}
      (step : a.InStep level (first.turn.resumed (level + 1)) first.state
        (a.resumed (level + 1) r))
      (step' : b.InStep level (second.turn.resumed (level + 1)) second.state
        (b.resumed (level + 1) r')) :
    BothLeave a b level ⟨.ok q, c, (first, second)⟩ ⟨.ok q, c, (r, r')⟩

theorem both_leave (ha : a.LeavesInStep wa) (hb : b.LeavesInStep wb)
    (hsteady : (Team.pair a b).Steady) (hlevel : position.ancestors.length = level)
    {first : Seat σ} {second : Seat τ} {r : ρ × ς}
    (hfirst : a.InStep (level + 1) first.turn first.state r.1)
    (hsecond : b.InStep (level + 1) second.turn second.state r.2) (n : Node) (c : γ) :
    BothLeave a b level
      ((first.leave wa (level + 1) position (.start n) c).andThen second
        (·.leave wb (level + 1) position))
      ((Team.pair a b).callAll .leaving (level + 1) position r (.start n) c) := by
  have hcalls := ha level position c first r.1 (.start n) hlevel hfirst rfl fun _ => .inl rfl
  have hheeded := hsteady.heeded .leaving (level + 1) position r.1 n c
  -- Only a single visitor can be second where the first one deletes.
  have hleaf : ∀ q, (a.callAll .leaving (level + 1) position r.1 (.start n) c).pass = .ok q →
      q.isDeleted = true → ¬ b.IsPair := by
    intro q hq hdeleted hpair
    have hkept := a.callAll_kept (hsteady.2.2.2 hpair).1 r.1 (.start n) q c rfl hq
    cases hdeleted.symm.trans hkept
  simp only [callAll]
  generalize first.leave wa (level + 1) position (.start n) c = called at hcalls ⊢
  generalize a.callAll .leaving (level + 1) position r.1 (.start n) c = flat
    at hcalls hheeded hleaf ⊢
  cases hcalls with
  | error same => exact .error same hsecond.same
  | @ok q c₁ seat₁ r₁ step =>
    cases hdeleted : q.isDeleted with
    | true =>
      rw [Called.andThen_deleted rfl hdeleted, Called.andThen_deleted rfl hdeleted]
      exact .ok step (hsecond.leaf_closes (hleaf q rfl hdeleted))
    | false =>
      rw [Called.andThen_ok rfl hdeleted, Called.andThen_ok rfl hdeleted]
      have hcalls := hb level position c₁ second r.2 q hlevel hsecond hdeleted (hheeded q rfl)
      generalize second.leave wb (level + 1) position q c₁ = called at hcalls ⊢
      generalize b.callAll .leaving (level + 1) position r.2 q c₁ = flat at hcalls ⊢
      cases hcalls with
      | error same => exact .error ((same_resumed _ _ _ _).mp step.same) same
      | ok step' => exact .ok step step'

theorem pair_leaveReplies (ha : a.LeavesInStep wa) (hb : b.LeavesInStep wb)
    (hsteady : (Team.pair a b).Steady) (hlevel : position.ancestors.length = level)
    {p : Pair σ τ} {r : ρ × ς} (hstep : (Team.pair a b).InStep (level + 1) .visiting p r)
    (n : Node) (c : γ) :
    (Team.pair a b).LeaveReplies level ((wa.compose wb).leave n position c p)
      ((Team.pair a b).callAll .leaving (level + 1) position r (.start n) c) := by
  have hboth := both_leave ha hb hsteady hlevel hstep.first hstep.second n c
  have hgrew := (Team.pair a b).callAll_grew .leaving (level + 1) position r (.start n) c
  have hdepth : p.depth = level + 1 := hstep.depth
  have hcalls : p.leaveBoth wa wb n position c =
      (p.first.leave wa (level + 1) position (.start n) c).andThen p.second
        (·.leave wb (level + 1) position) := by
    rw [Pair.leaveBoth, hdepth]
  generalize (p.first.leave wa (level + 1) position (.start n) c).andThen p.second
    (·.leave wb (level + 1) position) = called at hboth hcalls
  generalize (Team.pair a b).callAll .leaving (level + 1) position r (.start n) c = flat
    at hboth hgrew ⊢
  cases hboth with
  | error same same' =>
    rw [Visitor.compose_leave_error hcalls rfl]
    exact .error ⟨same, same'⟩
  | @ok q c first second r r' step step' =>
    have hstopped := both_stopped_iff (r := (Team.pair a b).resumed (level + 1) (r, r'))
      step step'
    have hgrew : (Pass.start n).Grew q ((Team.pair a b).turns (r, r')) := hgrew q rfl
    rw [Visitor.compose_leave_ok hcalls rfl, hdepth]
    have halike := q.signal_upward hstopped
    refine .ok halike ?_
    rw [← Signal.turnAfter_upward, halike, Signal.turnAfter_upward]
    have hstop := Pass.verdict_eq_stop fun hdeleted => not_all_stopped
      (mem_turns_resumed (level + 1) (hgrew.mem_of_deleted hdeleted))
    by_cases hall : ∀ u ∈ (Team.pair a b).turns ((Team.pair a b).resumed (level + 1) (r, r')),
        u = .stopped
    · obtain ⟨hfirst, hsecond⟩ := hstopped.mpr hall
      rw [hfirst] at step
      rw [hsecond] at step'
      rw [hstop.mpr hall]
      exact ⟨step, step'⟩
    · rw [Signal.turnAfter_of_ne_stop fun h => hall (hstop.mp h)]
      exact InStep.close step step' hall

theorem pair_leaves (ha : a.LeavesInStep wa) (hb : b.LeavesInStep wb)
    (hsteady : (Team.pair a b).Steady) (hw : w.ActsAs (wa.compose wb)) :
    (Team.pair a b).LeavesInStep w := by
  intro level position c seat r p hlevel hstep hkept hheeded
  by_cases hturn : seat.turn.resumed (level + 1) = .visiting
  · have hstep := hstep.resumes hturn
    have hturn : (seat.resumed (level + 1)).turn = .visiting := hturn
    have hreplies := pair_leaveReplies ha hb hsteady hlevel hstep p.node c
    have hgrew := (Team.pair a b).callAll_grew .leaving (level + 1) position r (.start p.node) c
    have hdepth : seat.state.depth = level + 1 := hstep.depth
    rw [← hw.leave p.node position c seat.state (by rw [hdepth, hlevel])] at hreplies
    obtain ⟨pass, c', r', hstart, hflat, habsorb⟩ :=
      (Team.pair a b).callAll_absorb (level + 1) position (hheeded trivial) hkept r c
    rw [hstart] at hreplies hgrew
    rw [hflat]
    generalize hreply : w.leave p.node position c seat.state = reply at hreplies
    cases hreplies with
    | error same =>
      rw [Seat.leave, Seat.call_replied_error none hturn hreply]
      exact .error same
    | @ok q signal _ _ _ alike step =>
      have hgrew := (hgrew q rfl).mono (mem_turns_resumed (level + 1))
      rw [Seat.leave, Seat.call_replied_ok none hturn hreply, ← Pass.apply_upward, alike,
        Pass.apply_upward, hgrew.apply_verdict]
      refine .ok ?_
      have hstay : (signal.turnAfter none).resumed (level + 1) = signal.turnAfter none := by
        cases signal <;> rfl
      change (Team.pair a b).InStep level ((signal.turnAfter none).resumed (level + 1)) _ _
      rw [hstay]
      exact step
  · have hne : seat.turn ≠ .visiting := by
      rintro h
      exact hturn (by rw [h]; rfl)
    have hstay := Turn.resumed_of_paused hturn
    have hstep := hstep.of_paused hne (hstay ▸ hstep.turn_within.closes)
    have hpaused : ∀ u ∈ (Team.pair a b).turns r, u.resumed (level + 1) ≠ .visiting := by
      intro u hu
      rw [(hstep.within u hu).resumed_succ]
      exact hstep.paused hne u hu
    rw [Seat.leave_aside hturn, callAll_aside _ _ _ _ _ _ hpaused]
    refine .ok ?_
    rw [hstay, resumed_of_aside _ r fun u hu => (hstep.within u hu).resumed_succ]
    exact hstep

end Team
end Pairs

/-! ## Walks of teams -/

namespace Team

variable {γ σ τ ρ ς : Type}

/-- A visitor that does what the team does pair by pair, as long as the counts are right. -/
def Nests {σ ρ : Type} : Team γ σ ρ → Visitor γ σ → Prop
  | .leaf v, w => w = v
  | .pair a b, w => ∃ wa wb, a.Nests wa ∧ b.Nests wb ∧ w.ActsAs (wa.compose wb)

theorem nests_visitor (t : Team γ σ ρ) : t.Nests t.visitor := by
  induction t with
  | leaf v => rfl
  | pair a b iha ihb =>
    exact ⟨a.visitor, b.visitor, iha, ihb, fun _ _ _ _ _ => rfl, fun _ _ _ _ _ => rfl⟩

/-- Nobody in a steady team can tell that it is nested. -/
theorem Steady.inStep {t : Team γ σ ρ} (hsteady : t.Steady) {w : Visitor γ σ}
    (hw : t.Nests w) : t.EntersInStep w ∧ t.LeavesInStep w := by
  induction t with
  | leaf v =>
    obtain rfl : w = v := hw
    exact ⟨leaf_enters w, leaf_leaves w⟩
  | pair a b iha ihb =>
    obtain ⟨wa, wb, hwa, hwb, hacts⟩ := hw
    obtain ⟨hentersA, hleavesA⟩ := iha hsteady.1 hwa
    obtain ⟨hentersB, hleavesB⟩ := ihb hsteady.2.1 hwb
    exact ⟨pair_enters hentersA hentersB hsteady hacts,
      pair_leaves hleavesA hleavesB hsteady hacts⟩

variable {a : Team γ σ ρ} {b : Team γ τ ς} {w : Visitor γ (Pair σ τ)}

theorem Settled.ready_opened {t : Team γ σ ρ} {position : Position} {s : σ} {r : ρ}
    (h : t.Settled position.ancestors.length .visiting s r) :
    t.Ready position.ancestors.length .visiting s
      (if position.ancestors.isEmpty then t.fresh r else r) := by
  cases hempty : position.ancestors.isEmpty with
  | true =>
    rw [List.isEmpty_iff.mp hempty] at h ⊢
    exact ready_fresh h.1
  | false =>
    refine ⟨h, fun hzero => ?_⟩
    rw [List.length_eq_zero_iff.mp hzero] at hempty
    cases hempty

theorem Steady.lockstep (hsteady : (Team.pair a b).Steady) (hw : (Team.pair a b).Nests w) :
    Lockstep w (Team.pair a b).flat fun level s r => (Team.pair a b).Settled level .visiting s r := by
  obtain ⟨wa, wb, hwa, hwb, hacts⟩ := hw
  obtain ⟨hentersA, hleavesA⟩ := hsteady.1.inStep hwa
  obtain ⟨hentersB, hleavesB⟩ := hsteady.2.1.inStep hwb
  refine ⟨fun level s r h => ⟨h.1, nofun⟩, ?_, ?_⟩
  -- The verdict of the calls side by side is the signal of the pair, on entering and on leaving.
  · intro n position c p r h
    have hready := h.ready_opened
    have hreplies := pair_enterReplies hentersA hentersB hsteady rfl hready n c
    rw [← hacts.enter n position c p (hready.opened rfl).1] at hreplies
    simp only [flat]
    generalize (Team.pair a b).callAll .entering (position.ancestors.length + 1) position
      (if position.ancestors.isEmpty then (Team.pair a b).fresh r else r) (.start n) c = called
      at hreplies ⊢
    generalize w.enter n position c p = reply at hreplies ⊢
    cases hreplies with
    | error same => exact ⟨rfl, rfl, same, nofun⟩
    | @deleted q c s r hdeleted settled =>
      refine ⟨rfl, rfl, ?_⟩
      simp only [Pass.verdict_deleted _ hdeleted, hdeleted, if_true]
      exact settled
    | @kept q c s r hkept step =>
      refine ⟨rfl, rfl, ?_⟩
      simp only [hkept, Bool.false_eq_true, if_false]
      rcases Pass.verdict_cases ((Team.pair a b).turns r) hkept with
        ⟨heq, -⟩ | ⟨-, ⟨e, hne, -, heq⟩ | ⟨-, heq, -⟩ | ⟨-, heq, -⟩⟩
      · rw [heq]
        exact ⟨step.same, nofun⟩
      · rw [heq] at step ⊢
        cases e with
        | delete => exact absurd rfl hne
        | keep | replace r | restore r => exact step.settled
      · rw [heq] at step ⊢
        exact (step.resumes (Turn.resumed_self _)).settled
      · rw [heq] at step ⊢
        exact step.settled
  · intro n position c p r h
    have hstep := h.2 (Nat.succ_pos _)
    have hreplies := pair_leaveReplies hleavesA hleavesB hsteady rfl hstep n c
    rw [← hacts.leave n position c p hstep.depth] at hreplies
    simp only [flat]
    generalize (Team.pair a b).callAll .leaving (position.ancestors.length + 1) position r
      (.start n) c = called at hreplies ⊢
    generalize w.leave n position c p = reply at hreplies ⊢
    cases hreplies with
    | error same => exact ⟨rfl, rfl, (same_resumed _ _ _ _).mpr same, nofun⟩
    | @ok q signal c s r alike step =>
      refine ⟨congrArg Except.ok alike, rfl, ?_⟩
      cases signal with
      | stop => exact ⟨step.same, nofun⟩
      | next | skip | edit e => exact step.settled

end Team
end QueryDoc
