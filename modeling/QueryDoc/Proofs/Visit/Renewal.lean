import QueryDoc.Proofs.Visit.Nesting

/-! Teams in one walk after another. From walk to walk a team keeps what its pairs have noted:
how many nodes are open and who waits or has stopped. A pair forgets all of that when it enters
a root, so whatever happened before, a walk goes as it would with the team put together anew. A
pair remembers only if it does not enter the root of a walk that goes on below it, because the
visitor before it wants the root deleted and an edit by a third one was first. -/
namespace QueryDoc

variable {γ σ τ ρ ς : Type}

/-! ## Calls of all visitors -/

/-- The calls of the visitors of a team, each with the place of the visitor in it: `false` for
the first member of a pair and `true` for the second one. -/
abbrev Minutes := List (List Bool × Call)

/-- Notes each call in the context after the earlier ones. -/
def Hook.noted (place : List Bool) (phase : Phase) (hook : Hook γ σ) : Hook (γ × Minutes) σ :=
  fun n position c s =>
    let reply := hook n position c.1 s
    ⟨reply.signal, (reply.context, c.2 ++ [(place, ⟨phase, n, position⟩)]), reply.state⟩

def Visitor.noted (place : List Bool) (v : Visitor γ σ) : Visitor (γ × Minutes) σ :=
  ⟨v.enter.noted place .entering, v.leave.noted place .leaving⟩

/-- The team with minutes of all calls, below a place. -/
def Team.noted {σ ρ : Type} (place : List Bool) : Team γ σ ρ → Team (γ × Minutes) σ ρ
  | .leaf v => .leaf (v.noted place)
  | .pair a b => .pair (a.noted (place ++ [false])) (b.noted (place ++ [true]))

/-- Walks of trees one after another with their results. Each starts from what is made of the
state that the one before has left. -/
inductive Visitor.Series (v : Visitor γ σ) (between : σ → σ) :
    List Node → γ → σ → List (Except Error Fate) → γ → σ → Prop where
  | done (c : γ) (s : σ) : v.Series between [] c s [] c s
  | walk {root : Node} {roots : List Node} {c c' : γ} {s s' : σ} {a : Answer γ σ}
      {results : List (Except Error Fate)} (hends : v.Ends root c (between s) a)
      (hrest : v.Series between roots a.context a.state results c' s') :
      v.Series between (root :: roots) c s (a.outcome :: results) c' s'

namespace Team

/-! ## What is forgotten -/

/-- The state of the team put together anew from visitors in the states that they have. -/
def renewed {σ ρ : Type} : Team γ σ ρ → σ → σ
  | .leaf _, s => s
  | .pair a b, p => .start (a.renewed p.first.state) (b.renewed p.second.state)

theorem renewed_renewed (t : Team γ σ ρ) (s : σ) : t.renewed (t.renewed s) = t.renewed s := by
  induction t with
  | leaf v => rfl
  | pair a b iha ihb =>
    show Pair.start (a.renewed (a.renewed _)) (b.renewed (b.renewed _)) = _
    rw [iha, ihb]
    rfl

theorem renewed_noted (t : Team γ σ ρ) (place : List Bool) (s : σ) :
    (t.noted place).renewed s = t.renewed s := by
  induction t generalizing place with
  | leaf v => rfl
  | pair a b iha ihb =>
    show Pair.start ((a.noted _).renewed _) ((b.noted _).renewed _) = _
    rw [iha, ihb]
    rfl

/-- Some pair of the team is called after another visitor. -/
def HasLaterPair {σ ρ : Type} : Team γ σ ρ → Prop
  | .leaf _ => False
  | .pair a b => a.HasLaterPair ∨ b.IsPair

theorem HasLaterPair.isPair {t : Team γ σ ρ} (h : t.HasLaterPair) : t.IsPair := by
  cases t with
  | leaf v => exact h
  | pair a b => trivial

theorem isPair_noted (t : Team γ σ ρ) (place : List Bool) : (t.noted place).IsPair ↔ t.IsPair := by
  cases t <;> rfl

theorem hasLaterPair_noted (t : Team γ σ ρ) (place : List Bool) :
    (t.noted place).HasLaterPair ↔ t.HasLaterPair := by
  induction t generalizing place with
  | leaf v => rfl
  | pair a b iha ihb => exact or_congr (iha _) (b.isPair_noted _)

/-- A visitor that is no pair has nothing to forget. -/
theorem eq_of_renewed {t : Team γ σ ρ} (h : ¬ t.IsPair) {s s' : σ}
    (hs : t.renewed s = t.renewed s') : s = s' := by
  cases t with
  | leaf v => exact hs
  | pair a b => exact absurd trivial h

end Team

/-! ## Roots -/

/-- The hook gives no such signal for a root. -/
def Hook.NeverAtRoot (hook : Hook γ σ) (bad : Signal → Prop) : Prop :=
  ∀ n (position : Position) c s signal, position.ancestors = [] →
    (hook n position c s).signal = .ok signal → ¬ bad signal

namespace Team

/-- No visitor of the team gives such a signal on entering a root. -/
def NeverAtRoot {σ ρ : Type} (bad : Signal → Prop) : Team γ σ ρ → Prop
  | .leaf v => v.enter.NeverAtRoot bad
  | .pair a b => a.NeverAtRoot bad ∧ b.NeverAtRoot bad

/-- Where a deletion of the root would keep a pair from entering it, the deletion counts: no
visitor edits a root before others of which one may delete it and keep a pair from entering. -/
def Undisputed {σ ρ : Type} : Team γ σ ρ → Prop
  | .leaf _ => True
  | .pair a b =>
    a.Undisputed ∧ b.Undisputed ∧
      (b.HasLaterPair → a.NeverAtRoot Signal.IsEdit ∨ b.NeverAtRoot Signal.IsDelete)

theorem NeverAtRoot.noted {bad : Signal → Prop} {t : Team γ σ ρ} (h : t.NeverAtRoot bad)
    (place : List Bool) : (t.noted place).NeverAtRoot bad := by
  induction t generalizing place with
  | leaf v => exact fun n position c s => h n position c.1 s
  | pair a b iha ihb => exact ⟨iha h.1 _, ihb h.2 _⟩

theorem Undisputed.noted {t : Team γ σ ρ} (h : t.Undisputed) (place : List Bool) :
    (t.noted place).Undisputed := by
  induction t generalizing place with
  | leaf v => trivial
  | pair a b iha ihb =>
    refine ⟨iha h.1 _, ihb h.2.1 _, fun hlater => ?_⟩
    rcases h.2.2 ((b.hasLaterPair_noted _).mp hlater) with hedit | hdelete
    · exact .inl (hedit.noted _)
    · exact .inr (hdelete.noted _)

end Team

theorem Pair.opened_root {position : Position} (h : position.ancestors = []) (p : Pair σ τ) :
    p.opened position = .start p.first.state p.second.state := by
  rw [opened, h]
  rfl

/-! ## Edits of a root -/

theorem Seat.enter_takes {v : Visitor γ σ} {depth : Int} {position : Position} {seat : Seat σ}
    {p q : Pass} {c : γ} (h : (seat.enter v depth position p c).pass = .ok q) :
    q = p ∨ ∃ signal, (v.enter p.node position c seat.state).signal = .ok signal ∧
      q = (p.apply .visiting (some depth) signal).1 := by
  unfold enter at h
  by_cases hturn : seat.turn = .visiting
  · cases hsignal : (v.enter p.node position c seat.state).signal with
    | error e =>
      rw [call_error _ hturn hsignal] at h
      cases h
    | ok signal =>
      rw [call_ok _ hturn hsignal] at h
      cases h
      exact .inr ⟨signal, rfl, rfl⟩
  · rw [call_aside _ hturn] at h
    cases h
    exact .inl rfl

theorem Pass.isDeleted_apply {p : Pass} {signal : Signal} (hp : p.isDeleted = false)
    (h : ¬ signal.IsDelete) (turn : Turn) (skipDepth : Option Int) :
    (p.apply turn skipDepth signal).1.isDeleted = false := by
  by_cases hedit : signal.IsEdit
  · obtain ⟨e, rfl⟩ := hedit
    refine isDeleted_take hp ?_
    rintro rfl
    exact h rfl
  · rw [p.apply_of_not_isEdit _ _ hedit]
    exact hp

theorem Pass.isDeleted_of_signal {q : Pass} {t t' : Turn} (h : (q.signal t t').IsDelete) :
    q.isDeleted = true := by
  by_contra hkept
  rw [Signal.IsDelete, signal, if_neg hkept] at h
  split at h
  · cases h
  · cases hedit : q.edit with
    | none =>
      rw [hedit] at h
      dsimp only at h
      split at h <;> cases h
    | some e =>
      rw [hedit] at h
      cases h
      exact hkept (by simp [isDeleted, hedit])

theorem Pass.edit_of_signal {q : Pass} {t t' : Turn} (h : (q.signal t t').IsEdit) :
    q.edit ≠ none := by
  intro hnone
  have hkept : ¬ q.isDeleted = true := by simp [isDeleted, hnone]
  obtain ⟨e, h⟩ := h
  rw [signal, if_neg hkept, hnone] at h
  dsimp only at h
  split at h
  · cases h
  · split at h <;> cases h

section Compose
variable {a : Visitor γ σ} {b : Visitor γ τ} {bad : Signal → Prop}

/-- What no signal but a bad one takes from a pass is kept where the visitors give none. -/
theorem Pair.enterBoth_keeps {P : Pass → Prop}
    (hkeeps : ∀ p signal depth, P p → ¬ bad signal → P (p.apply .visiting (some depth) signal).1)
    (ha : a.enter.NeverAtRoot bad) (hb : b.enter.NeverAtRoot bad) {n : Node}
    {position : Position} (hroot : position.ancestors = []) (hn : P (.start n)) {depth : Int}
    {c : γ} {p : Pair σ τ} {q : Pass}
    (h : (p.enterBoth a b depth n position c).pass = .ok q) : P q := by
  have hfirst : ∀ q, (p.first.enter a depth position (.start n) c).pass = .ok q → P q := by
    intro q hq
    rcases Seat.enter_takes hq with rfl | ⟨signal, hsignal, rfl⟩
    · exact hn
    · exact hkeeps _ _ _ hn (ha _ _ _ _ _ hroot hsignal)
  rcases Called.andThen_cases h with ⟨hq, -⟩ | ⟨q', hq', -, hq, -⟩
  · exact hfirst q hq
  · rcases Seat.enter_takes hq with rfl | ⟨signal, hsignal, rfl⟩
    · exact hfirst _ hq'
    · exact hkeeps _ _ _ (hfirst _ hq') (hb _ _ _ _ _ hroot hsignal)

theorem Visitor.compose_neverAtRoot {P : Pass → Prop}
    (hkeeps : ∀ p signal depth, P p → ¬ bad signal → P (p.apply .visiting (some depth) signal).1)
    (hstart : ∀ n, P (.start n)) (hsignal : ∀ q t t', P q → ¬ bad (q.signal t t'))
    (ha : a.enter.NeverAtRoot bad) (hb : b.enter.NeverAtRoot bad) :
    (a.compose b).enter.NeverAtRoot bad := by
  intro n position c p signal hroot h
  generalize hcalled : (p.opened position).enterBoth a b _ n position c = called at h
  cases hpass : called.pass with
  | error e =>
    rw [compose_enter_error rfl hcalled hpass] at h
    cases h
  | ok q =>
    rw [compose_enter_ok rfl hcalled hpass] at h
    cases h
    rw [← hcalled] at hpass
    exact hsignal _ _ _ (Pair.enterBoth_keeps hkeeps ha hb hroot (hstart n) hpass)

end Compose

namespace Team

theorem NeverAtRoot.edit {t : Team γ σ ρ} (h : t.NeverAtRoot Signal.IsEdit) :
    t.visitor.enter.NeverAtRoot Signal.IsEdit := by
  induction t with
  | leaf v => exact h
  | pair a b iha ihb =>
    refine Visitor.compose_neverAtRoot (P := fun p => p.edit = none) ?_ (fun _ => rfl) ?_
      (iha h.1) (ihb h.2)
    · intro p signal depth hp hsignal
      rwa [p.apply_of_not_isEdit _ _ hsignal]
    · exact fun q t t' hq hsignal => Pass.edit_of_signal hsignal hq

theorem NeverAtRoot.delete {t : Team γ σ ρ} (h : t.NeverAtRoot Signal.IsDelete) :
    t.visitor.enter.NeverAtRoot Signal.IsDelete := by
  induction t with
  | leaf v => exact h
  | pair a b iha ihb =>
    refine Visitor.compose_neverAtRoot (P := fun p => p.isDeleted = false) ?_ Pass.isDeleted_start
      ?_ (iha h.1) (ihb h.2)
    · exact fun p signal depth hp hsignal => Pass.isDeleted_apply hp hsignal _ _
    · intro q t t' hq hsignal
      rw [Pass.isDeleted_of_signal hsignal] at hq
      cases hq

/-! ## Entering a root -/

/-- Answers of a team to a root, from states that differ at most in what is forgotten. Unless
the root is deleted and a pair did not enter it, everything has been forgotten. -/
structure EntersAlike (t : Team γ σ ρ) (x y : Reply γ σ) : Prop where
  signal : x.signal = y.signal
  context : x.context = y.context
  renewed : t.renewed x.state = t.renewed y.state
  state : ∀ signal, x.signal = .ok signal → ¬ signal.IsDelete ∨ ¬ t.HasLaterPair →
    x.state = y.state

/-- The same for the seat of a team in a pair. -/
structure SeatsAlike (t : Team γ σ ρ) (x y : Called γ (Seat σ)) : Prop where
  pass : x.pass = y.pass
  context : x.context = y.context
  renewed : t.renewed x.seats.state = t.renewed y.seats.state

variable {t : Team γ σ ρ} {position : Position} {depth : Int} {p q : Pass} {c : γ} {s s' : σ}

theorem EntersAlike.seats
    (h : t.EntersAlike (t.visitor.enter p.node position c s) (t.visitor.enter p.node position c s'))
    (depth : Int) :
    t.SeatsAlike (Seat.enter t.visitor depth position ⟨.visiting, s⟩ p c)
      (Seat.enter t.visitor depth position ⟨.visiting, s'⟩ p c) := by
  unfold Seat.enter
  cases hsignal : (t.visitor.enter p.node position c s).signal with
  | error e =>
    rw [Seat.call_error _ rfl hsignal, Seat.call_error _ rfl (h.signal.symm.trans hsignal)]
    exact ⟨rfl, h.context, h.renewed⟩
  | ok signal =>
    rw [Seat.call_ok _ rfl hsignal, Seat.call_ok _ rfl (h.signal.symm.trans hsignal)]
    exact ⟨rfl, h.context, h.renewed⟩

theorem EntersAlike.seats_eq
    (h : t.EntersAlike (t.visitor.enter p.node position c s) (t.visitor.enter p.node position c s'))
    (hq : (Seat.enter t.visitor depth position ⟨.visiting, s⟩ p c).pass = .ok q)
    (hforgets : (p.edit = none ∨ t.NeverAtRoot Signal.IsDelete) ∧ q.isDeleted = false ∨
      ¬ t.HasLaterPair) (hroot : position.ancestors = []) :
    (Seat.enter t.visitor depth position ⟨.visiting, s⟩ p c).seats =
      (Seat.enter t.visitor depth position ⟨.visiting, s'⟩ p c).seats := by
  unfold Seat.enter at hq ⊢
  cases hsignal : (t.visitor.enter p.node position c s).signal with
  | error e =>
    rw [Seat.call_error _ rfl hsignal] at hq
    cases hq
  | ok signal =>
    rw [Seat.call_ok _ rfl hsignal] at hq ⊢
    cases hq
    rw [Seat.call_ok _ rfl (h.signal.symm.trans hsignal)]
    have hstate := h.state signal hsignal <| by
      refine hforgets.imp_left ?_
      rintro ⟨hnone | hnever, hkept⟩ hdelete
      · -- A deletion is taken up by a pass without an edit.
        obtain rfl : signal = .edit .delete := hdelete
        rw [Pass.eq_start hnone] at hkept
        cases hkept
      · exact hnever.delete _ _ _ _ _ hroot hsignal hdelete
    exact congrArg (Seat.mk _) hstate

/-- Passes of two visitors over a root, from states that differ at most in what is forgotten. -/
structure PassesAlike (a : Team γ σ ρ) (b : Team γ τ ς) (x y : Called γ (Seat σ × Seat τ)) :
    Prop where
  pass : x.pass = y.pass
  context : x.context = y.context
  first : a.renewed x.seats.1.state = a.renewed y.seats.1.state
  second : b.renewed x.seats.2.state = b.renewed y.seats.2.state
  seats : ∀ q, x.pass = .ok q → q.isDeleted = false ∨ ¬ (Team.pair a b).HasLaterPair →
    x.seats = y.seats

section Pair
variable {a : Team γ σ ρ} {b : Team γ τ ς} {r r' : τ}

theorem enterBoth_root (h : (Team.pair a b).Undisputed) (hroot : position.ancestors = [])
    (ha : ∀ n c, a.EntersAlike (a.visitor.enter n position c s) (a.visitor.enter n position c s'))
    (hb : ∀ n c, b.EntersAlike (b.visitor.enter n position c r) (b.visitor.enter n position c r'))
    (hr : b.renewed r = b.renewed r') (n : Node) :
    a.PassesAlike b ((Pair.start s r).enterBoth a.visitor b.visitor depth n position c)
      ((Pair.start s' r').enterBoth a.visitor b.visitor depth n position c) := by
  have hfirst := EntersAlike.seats (p := .start n) (ha n c) depth
  have hsecond := fun q c' => EntersAlike.seats (p := q) (hb q.node c') depth
  simp only [Pair.enterBoth, Pair.start]
  cases hpass : (Seat.enter a.visitor depth position ⟨.visiting, s⟩ (.start n) c).pass with
  | error e =>
    rw [Called.andThen_error hpass, Called.andThen_error (hfirst.pass.symm.trans hpass)]
    refine ⟨rfl, hfirst.context, hfirst.renewed, hr, ?_⟩
    rintro q ⟨⟩
  | ok q =>
    have hpass' := hfirst.pass.symm.trans hpass
    have hseats := fun h => EntersAlike.seats_eq (ha n c) hpass h hroot
    cases hdeleted : q.isDeleted with
    | true =>
      rw [Called.andThen_deleted hpass hdeleted, Called.andThen_deleted hpass' hdeleted]
      refine ⟨rfl, hfirst.context, hfirst.renewed, hr, ?_⟩
      rintro _ ⟨⟩ (hkept | hlater)
      · cases hdeleted.symm.trans hkept
      · -- The second visitor is not called, and is no pair with anything to forget.
        obtain rfl := b.eq_of_renewed (fun hpair => hlater (.inr hpair)) hr
        exact congrArg (·, _) (hseats (.inr fun hlater' => hlater (.inl hlater')))
    | false =>
      rw [Called.andThen_ok hpass hdeleted, Called.andThen_ok hpass' hdeleted, ← hfirst.context]
      refine ⟨(hsecond _ _).pass, (hsecond _ _).context, hfirst.renewed, (hsecond _ _).renewed, ?_⟩
      intro q' hq' hforgets
      have hfirst_eq := hseats (.inl ⟨.inl rfl, hdeleted⟩)
      refine Prod.ext hfirst_eq (EntersAlike.seats_eq (hb q.node _) hq' ?_ hroot)
      rcases hforgets with hkept | hlater
      · by_cases hpair : b.HasLaterPair
        · refine .inl ⟨?_, hkept⟩
          refine (h.2.2 hpair).imp_left fun hnever => ?_
          rcases Seat.enter_takes hpass with rfl | ⟨signal, hsignal, rfl⟩
          · rfl
          · rw [Pass.apply_of_not_isEdit _ _ _ (hnever.edit _ _ _ _ _ hroot hsignal)]
            rfl
        · exact .inr hpair
      · exact .inr fun hpair => hlater (.inr hpair.isPair)

theorem entersAlike_pair {pair pair' : Pair σ τ} {n : Node} (hroot : position.ancestors = [])
    (h : a.PassesAlike b
      ((Pair.start pair.first.state pair.second.state).enterBoth a.visitor b.visitor 1 n position c)
      ((Pair.start pair'.first.state pair'.second.state).enterBoth a.visitor b.visitor 1 n
        position c)) :
    (Team.pair a b).EntersAlike ((a.visitor.compose b.visitor).enter n position c pair)
      ((a.visitor.compose b.visitor).enter n position c pair') := by
  rw [← Pair.opened_root hroot pair, ← Pair.opened_root hroot pair'] at h
  generalize hx : (pair.opened position).enterBoth a.visitor b.visitor 1 n position c = x at h
  generalize hy : (pair'.opened position).enterBoth a.visitor b.visitor 1 n position c = y at h
  have hdepth : ∀ pair : Pair σ τ, (pair.opened position).depth + 1 = 1 := by
    intro pair
    rw [Pair.opened_root hroot]
    rfl
  cases hpass : x.pass with
  | error e =>
    rw [Visitor.compose_enter_error (hdepth _) hx hpass,
      Visitor.compose_enter_error (hdepth _) hy (h.pass.symm.trans hpass)]
    exact ⟨rfl, h.context, congrArg₂ Pair.start h.first h.second, nofun⟩
  | ok q =>
    rw [Visitor.compose_enter_ok (hdepth _) hx hpass,
      Visitor.compose_enter_ok (hdepth _) hy (h.pass.symm.trans hpass)]
    cases hdeleted : q.isDeleted with
    | true =>
      have hsignal : ∀ t t', q.signal t t' = .edit .delete := fun t t' => if_pos hdeleted
      simp only [hsignal, Pair.entered_closes (.inl rfl)]
      refine ⟨rfl, h.context, congrArg₂ Pair.start h.first h.second, ?_⟩
      rintro _ ⟨⟩ (hgoes | hlater)
      · exact absurd rfl hgoes
      · rw [h.seats q hpass (.inr hlater)]
    | false =>
      rw [h.seats q hpass (.inl hdeleted)]
      exact ⟨rfl, h.context, rfl, fun _ _ _ => rfl⟩

end Pair

theorem enter_root (h : t.Undisputed) (hroot : position.ancestors = []) (n : Node) (c : γ)
    (hs : t.renewed s = t.renewed s') :
    t.EntersAlike (t.visitor.enter n position c s) (t.visitor.enter n position c s') := by
  induction t generalizing n c with
  | leaf v =>
    obtain rfl : s = s' := hs
    exact ⟨rfl, rfl, rfl, fun _ _ _ => rfl⟩
  | pair a b iha ihb =>
    have ha := fun n c => iha h.1 n c (congrArg (·.first.state) hs)
    have hb := fun n c => ihb h.2.1 n c (congrArg (·.second.state) hs)
    exact entersAlike_pair hroot
      (enterBoth_root h hroot ha hb (congrArg (·.second.state) hs) n)

/-! ## Walks -/

/-- From states that differ at most in what is forgotten, a team's walks agree: on the root by
what has been shown, and below it because then nothing differs any more. -/
theorem lockstep_renewed (h : t.Undisputed) :
    Lockstep t.visitor t.visitor
      fun level s s' => t.renewed s = t.renewed s' ∧ (0 < level → s = s') where
  ended := fun _ _ _ hs => ⟨hs.1, nofun⟩
  enter := by
    intro n position c s s' hs
    by_cases hroot : position.ancestors = []
    · have henter := enter_root h hroot n c hs.1
      refine ⟨henter.signal, henter.context, henter.renewed, fun hlevel => ?_⟩
      rw [hroot] at hlevel
      cases hsignal : (t.visitor.enter n position c s).signal with
      | error e =>
        rw [hsignal] at hlevel
        cases hlevel
      | ok signal =>
        refine henter.state signal hsignal (.inl ?_)
        rintro rfl
        rw [hsignal] at hlevel
        cases hlevel
    · obtain rfl := hs.2 (List.length_pos_iff.mpr hroot)
      exact ⟨rfl, rfl, rfl, fun _ => rfl⟩
  leave := by
    intro n position c s s' hs
    obtain rfl := hs.2 (Nat.succ_pos _)
    exact ⟨rfl, rfl, rfl, fun _ => rfl⟩

/-- The same result and context, and visitors in the same states. -/
structure RenewedAnswer {Γ : Type} (t : Team γ σ ρ) (x y : Answer Γ σ) : Prop where
  outcome : x.outcome = y.outcome
  stopDepth : x.stopDepth = y.stopDepth
  context : x.context = y.context
  renewed : t.renewed x.state = t.renewed y.state

theorem endAlike_of_renewed (h : t.Undisputed) (root : Node) (c : γ)
    (hs : t.renewed s = t.renewed s') :
    t.visitor.EndAlike t.RenewedAnswer root c s t.visitor c s' :=
  ((lockstep_renewed h).endAlike root c ⟨hs, nofun⟩).imp
    fun _ _ halike => ⟨halike.outcome, halike.stopDepth, halike.context, halike.state.1⟩

/-- Whatever state earlier walks have left a team in, the next one has the same result, with
the same calls of all its visitors in the same order, as with the team put together anew. -/
theorem walk_renewed (h : t.Undisputed) (root : Node) (c : γ) (s : σ) :
    (t.noted []).visitor.EndAlike t.RenewedAnswer root (c, []) s
      (t.noted []).visitor (c, []) (t.renewed s) := by
  have hs : (t.noted []).renewed s = (t.noted []).renewed (t.renewed s) := by
    rw [renewed_noted, renewed_noted, renewed_renewed]
  refine (endAlike_of_renewed (h.noted []) root (c, []) hs).imp fun x y hxy => ?_
  have hrenewed := hxy.renewed
  rw [renewed_noted, renewed_noted] at hrenewed
  exact ⟨hxy.outcome, hxy.stopDepth, hxy.context, hrenewed⟩

/-- A series of walks with a team has the same results whatever is done to the team between the
walks, as long as its visitors keep their states: nothing at all, or to put it together anew. -/
theorem series_alike (h : t.Undisputed) {between between' : σ → σ}
    (hbetween : ∀ s, t.renewed (between s) = t.renewed s)
    (hbetween' : ∀ s, t.renewed (between' s) = t.renewed s) {roots : List Node} {c c' : γ}
    {results : List (Except Error Fate)} {last : σ}
    (hseries : t.visitor.Series between roots c s results c' last)
    (hs : t.renewed s = t.renewed s') :
    ∃ last', t.visitor.Series between' roots c s' results c' last' ∧
      t.renewed last = t.renewed last' := by
  induction hseries generalizing s' with
  | done c s => exact ⟨s', .done c s', hs⟩
  | @walk root roots c c' s last a results hends _ ih =>
    have hstart : t.renewed (between s) = t.renewed (between' s') := by
      rw [hbetween, hbetween', hs]
    obtain ⟨b, hb, hab⟩ := (endAlike_of_renewed h root c hstart).1 a hends
    obtain ⟨last', hrest, hlast⟩ := ih hab.renewed
    rw [hab.context] at hrest
    rw [hab.outcome]
    exact ⟨last', .walk hb hrest, hlast⟩

end Team

/-- Two visitors that do nothing, one that stops at a node, and one more that does nothing. -/
def stoppingTeam :
    Team Unit (Pair Unit (Pair Unit (Pair Unit Unit)))
      (Seat Unit × Seat Unit × Seat Unit × Seat Unit) :=
  let idle := Team.leaf (Visitor.entering fun _ => .next)
  .pair idle (.pair idle (.pair (.leaf (.entering (Signal.stop.only (flag true)))) idle))

theorem undisputed_stoppingTeam : stoppingTeam.Undisputed := by
  have hidle : (Visitor.entering fun _ => .next).enter.NeverAtRoot Signal.IsEdit := by
    rintro n position c s signal - ⟨⟩ ⟨e, ⟨⟩⟩
  exact ⟨trivial, ⟨trivial, ⟨trivial, trivial, nofun⟩, fun _ => .inl hidle⟩,
    fun _ => .inl hidle⟩

/-- The third visitor stopped in a walk before, and is called again in the next one as if the
team was put together anew. -/
theorem walk_renewed_stopping :
    stoppingTeam.Undisputed ∧
    ∃ x y, stoppingTeam.visitor.Ends (flag true) () (.start () (.start () (.start () ()))) x ∧
      x.state.second.state.second.state.first.turn = .stopped ∧
      (stoppingTeam.noted []).visitor.Ends (flags [false]) ((), [])
        (stoppingTeam.renewed x.state) y ∧
      (y.context.2.map (·.1)).take 4 =
        [[false], [true, false], [true, true, false], [true, true, true]] := by
  have hrun : ((visit 20 stoppingTeam.visitor (flag true) ()
      (.start () (.start () (.start () ())))).bind fun x =>
        (visit 20 (stoppingTeam.noted []).visitor (flags [false]) ((), []) x.state).map
          fun y => (x.state.second.state.second.state.first.turn, (y.context.2.map (·.1)).take 4)) =
      some (.stopped, [[false], [true, false], [true, true, false], [true, true, true]]) := by
    decide +kernel
  obtain ⟨x, hx, hnext⟩ := Option.bind_eq_some_iff.mp hrun
  obtain ⟨y, hy, hseen⟩ := Option.map_eq_some_iff.mp hnext
  obtain ⟨hturn, hcalls⟩ := Prod.mk.inj hseen
  obtain ⟨y', hy', hsame⟩ := (Team.walk_renewed undisputed_stoppingTeam (flags [false]) () x.state).1
    y ⟨20, hy⟩
  exact ⟨undisputed_stoppingTeam, x, y', ⟨20, hx⟩, hturn, hy', hsame.context ▸ hcalls⟩

/-- A visitor that keeps a root, one that deletes it, one that stops at another one, and one
that does nothing. -/
def disputingTeam :
    Team Unit (Pair Unit (Pair Unit (Pair Unit Unit)))
      (Seat Unit × Seat Unit × Seat Unit × Seat Unit) :=
  .pair (.leaf (.entering (Signal.only (.edit .keep) (flags [false]))))
    (.pair (.leaf (.entering (Signal.only (.edit .delete) (flags [false]))))
      (.pair (.leaf (.entering (Signal.stop.only (flag true))))
        (.leaf (.entering fun _ => .next))))

/-- The visitor that stopped has no call in the next walk: the pair that it is in does not
enter the root of that walk, since the visitor before deletes it, and the walk goes on below
the root, since the first visitor keeps it. Put together anew, the team calls it. -/
theorem walk_remembers :
    let third : Minutes → List Node := fun minutes =>
      (minutes.filter (·.1 = [true, true, false])).map (·.2.node)
    (visit 20 disputingTeam.visitor (flag true) () (.start () (.start () (.start () ())))).map
        (fun x =>
          ((visit 20 (disputingTeam.noted []).visitor (flags [false]) ((), []) x.state).map
              fun y => third y.context.2,
            (visit 20 (disputingTeam.noted []).visitor (flags [false]) ((), [])
              (disputingTeam.renewed x.state)).map fun y => third y.context.2)) =
      some (some [], some [flag false, flag false, flags [false]]) := by
  decide +kernel
end QueryDoc
