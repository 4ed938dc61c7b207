import QueryDoc.Proofs.Visit.Observer

/-! Walks with an observer beside a visitor. While the visitor is paused the host walks on
with the observer alone, which comes to an end and changes nothing; while it is not, the
host's walk is the visitor's own. -/
namespace QueryDoc

/-- A turn stays paused while no node less deep than a level is left. -/
def Turn.WaitsAt (turn : Turn) (level : Nat) : Prop :=
  ∀ depth : Int, level < depth → turn.resumed depth ≠ .visiting

namespace Turn

theorem waitsAt_stopped (level : Nat) : stopped.WaitsAt level := by
  intro depth _
  rw [resumed_stopped]
  exact Turn.noConfusion

theorem waitsAt_skipping (level : Nat) : (skipping level).WaitsAt level := by
  intro depth hdepth
  rw [resumed_of_ne (by rintro ⟨⟩; exact absurd hdepth (Int.lt_irrefl _))]
  exact Turn.noConfusion

theorem WaitsAt.succ {turn : Turn} {level : Nat} (h : turn.WaitsAt level) :
    turn.WaitsAt (level + 1) :=
  fun depth hdepth => h depth (by omega)

theorem WaitsAt.ne_visiting {turn : Turn} {level : Nat} (h : turn.WaitsAt level) :
    turn ≠ .visiting := by
  rintro rfl
  exact h (level + 1) (by omega) rfl

end Turn

theorem Guest.opened_below {σ : Type} {position : Position} (h : position.ancestors ≠ [])
    (g : Guest σ) : g.opened position = g :=
  if_neg (by rwa [List.isEmpty_iff])

section Transparent
variable {Γ γ σ τ : Type} {host : Visitor Γ τ} {v : Visitor Γ σ} {look : Γ → γ}
variable {guest : τ → Guest σ}

/-! ## The guest is paused -/

/-- Nothing came of a part of a walk for a guest that was paused all along. -/
structure Rests (look : Γ → γ) (guest : τ → Guest σ) (turn : Turn) (level : Nat) (c : Γ)
    (s : τ) (stopDepth : Option Nat) (c' : Γ) (s' : τ) : Prop where
  context : look c' = look c
  state : (guest s').state = (guest s).state
  turn : stopDepth = none ∧ (guest s').IsAt turn level ∨ stopDepth.isSome ∧ turn = .stopped

/-- With a paused guest, walks for nodes up to a size come to an end and change nothing. -/
def Sleeps (look : Γ → γ) (guest : τ → Guest σ) (turn : Turn) (size : Nat)
    (w : Node → Position → Γ → τ → Option (Answer Γ τ)) : Prop :=
  ∀ n (position : Position) c s, sizeOf n ≤ size → position.ancestors ≠ [] →
    turn.WaitsAt position.ancestors.length → (guest s).IsAt turn position.ancestors.length →
    ∃ y, w n position c s = some y ∧ y.outcome = .ok .kept ∧
      Rests look guest turn position.ancestors.length c s y.stopDepth y.context y.state

section
variable {turn : Turn} {size : Nat} {w : Node → Position → Γ → τ → Option (Answer Γ τ)}

theorem walkChildren_aside (hw : Sleeps look guest turn size w) (parent : Node)
    (position : Position) (hturn : turn.WaitsAt (position.ancestors.length + 1)) :
    ∀ (children : List Child) (c : Γ) (s : τ), (∀ child ∈ children, sizeOf child.node ≤ size) →
      (guest s).IsAt turn (position.ancestors.length + 1 : Nat) →
      ∃ p, walkChildren w parent position children c s = some p ∧
        p.entries = .ok (children.map (some ·.node)) ∧ p.edited = false ∧
        Rests look guest turn (position.ancestors.length + 1) c s p.stopDepth p.context
          p.state := by
  intro children
  induction children with
  | nil =>
    intro c s _ hguest
    exact ⟨_, rfl, rfl, rfl, rfl, rfl, .inl ⟨rfl, hguest⟩⟩
  | cons child children ih =>
    intro c s hsize hguest
    obtain ⟨y, hy, houtcome, hrests⟩ := hw child.node (position.child parent child.key) c s
      (hsize child List.mem_cons_self) (position.ancestors_child_ne parent child.key)
      (by rwa [Position.length_child]) (by rwa [Position.length_child])
    rw [Position.length_child] at hrests
    rcases hrests.turn with ⟨hstop, hguest'⟩ | ⟨hstop, hstopped⟩
    · obtain ⟨p, hp, hentries, hedited, hrest⟩ := ih y.context y.state
        (fun child h => hsize child (List.mem_cons_of_mem _ h)) hguest'
      rw [walkChildren_next parent position hy houtcome hstop, hp]
      refine ⟨_, rfl, ?_, ?_, ?_, ?_, ?_⟩
      · simp only [Passage.after, hentries]
        rfl
      · simp only [Passage.after, hedited]
        rfl
      · exact hrest.context.trans hrests.context
      · exact hrest.state.trans hrests.state
      · exact hrest.turn
    · obtain ⟨d, hd⟩ := Option.isSome_iff_exists.mp hstop
      rw [walkChildren_stop parent position hy houtcome hd]
      exact ⟨_, rfl, rfl, rfl, hrests.context, hrests.state, .inr ⟨rfl, hstopped⟩⟩

theorem leaveNode_aside (hosts : Hosts host v look guest) (held n : Node) (fate : Fate)
    (position : Position) (c : Γ) (s : τ) (hturn : turn.WaitsAt position.ancestors.length)
    (hguest : (guest s).IsAt turn (position.ancestors.length + 1 : Nat)) :
    let y := leaveNode host held n fate position c s
    y.outcome = .ok fate ∧
      Rests look guest turn position.ancestors.length c s y.stopDepth y.context y.state := by
  obtain ⟨hat, hdepth⟩ := hguest
  have hpaused : (guest s).turn.resumed (guest s).depth ≠ .visiting := by
    rw [hat, hdepth]
    exact hturn _ (by omega)
  obtain ⟨hcontext, hstate, signal, hsignal, hshown⟩ :=
    hosts.leave_aside ((fate.node? n).getD n) position c s hpaused
  rw [hat, hdepth, Int.natCast_add, Int.cast_ofNat_Int, Int.add_sub_cancel] at hshown
  simp only [leaveNode, hsignal]
  rcases hshown with ⟨rfl, hstopped⟩ | ⟨rfl | rfl, hguest⟩
  · exact ⟨rfl, hcontext, hstate, .inr ⟨rfl, hstopped⟩⟩
  · exact ⟨rfl, hcontext, hstate, .inl ⟨rfl, hguest⟩⟩
  · exact ⟨rfl, hcontext, hstate, .inl ⟨rfl, hguest⟩⟩

/-- A node that was entered stays the same, whether or not its children are walked. -/
theorem descend_aside (hosts : Hosts host v look guest) (hw : Sleeps look guest turn size w)
    (n : Node) (children : List Child) (position : Position) (c : Γ) (s : τ)
    (hsize : ∀ child ∈ children, sizeOf child.node ≤ size)
    (hturn : turn.WaitsAt position.ancestors.length)
    (hguest : (guest s).IsAt turn (position.ancestors.length + 1 : Nat)) :
    ∃ y, (walkChildren w n position children c s).map (·.conclude host n n false position) =
        some y ∧ y.outcome = .ok .kept ∧
      Rests look guest turn position.ancestors.length c s y.stopDepth y.context y.state := by
  obtain ⟨p, hp, hentries, hedited, hrests⟩ :=
    walkChildren_aside hw n position hturn.succ children c s hsize hguest
  rw [hp]
  refine ⟨_, rfl, ?_⟩
  rcases hrests.turn with ⟨hstop, hguest'⟩ | ⟨hstop, hstopped⟩
  · obtain ⟨houtcome, hleft⟩ :=
      leaveNode_aside hosts n n .kept position p.context p.state hturn hguest'
    simp only [Passage.conclude, hentries, hedited, closeNode, hstop, Bool.false_eq_true,
      if_false]
    exact ⟨houtcome, hleft.context.trans hrests.context, hleft.state.trans hrests.state,
      hleft.turn⟩
  · obtain ⟨d, hd⟩ := Option.isSome_iff_exists.mp hstop
    simp only [Passage.conclude, hentries, hedited, closeNode, hd, Bool.false_eq_true, if_false]
    exact ⟨trivial, hrests.context, hrests.state, .inr ⟨rfl, hstopped⟩⟩

/-- Without the guest nothing takes the place of a node, so that a walk goes down no further
than the tree does. -/
theorem walk_aside (hosts : Hosts host v look guest) (turn : Turn) (size : Nat) :
    Sleeps look guest turn size (walk host size) := by
  induction size with
  | zero =>
    intro n position c s hsize
    exact absurd (Nat.lt_of_lt_of_le n.sizeOf_pos hsize) (Nat.lt_irrefl 0)
  | succ size ih =>
    intro n position c s hsize hbelow hturn hguest
    have hopened := Guest.opened_below hbelow (guest s)
    obtain ⟨hcontext, hstate, signal, hsignal, hshown⟩ :=
      hosts.enter_aside n position c s (by rw [hopened, hguest.1]; exact hturn.ne_visiting)
    rw [hopened, hguest.1, hguest.2] at hshown
    have hchildren : ∀ child ∈ n.children, sizeOf child.node ≤ size := by
      intro child hchild
      have := Node.sizeOf_child hchild
      omega
    have hentered : ∀ children : List Child, (∀ child ∈ children, sizeOf child.node ≤ size) →
        signal.opening n = .descend n false children →
        (guest (host.enter n position c s).state).IsAt turn
          (position.ancestors.length + 1 : Nat) →
        ∃ y, walk host (size + 1) n position c s = some y ∧ y.outcome = .ok .kept ∧
          Rests look guest turn position.ancestors.length c s y.stopDepth y.context y.state := by
      intro children hsize hopening hguest
      obtain ⟨y, hy, houtcome, hrests⟩ :=
        descend_aside hosts ih n children position _ _ hsize hturn hguest
      rw [walk_descend rfl hsignal hopening]
      exact ⟨y, hy, houtcome, hrests.context.trans hcontext, hrests.state.trans hstate,
        hrests.turn⟩
    rcases hshown with ⟨rfl, hstopped⟩ | ⟨rfl | rfl, hguest'⟩
    · rw [walk_stopped rfl hsignal rfl]
      exact ⟨_, rfl, rfl, hcontext, hstate, .inr ⟨rfl, hstopped⟩⟩
    · exact hentered n.children hchildren rfl hguest'
    · exact hentered [] (by simp) rfl hguest'

end

/-! ## The guest takes part -/

/-- Where a guest stays that went on or stopped at a node. If it stopped, the host may have
gone on without it. -/
def Guest.Stays (g : Guest σ) (level : Nat) (alone hosted : Option Nat) : Prop :=
  match alone with
  | none => hosted = none ∧ g.IsAt .visiting level
  | some _ => hosted.isSome ∨ hosted = none ∧ g.IsAt .stopped level

namespace Guest

variable {g : Guest σ} {depth : Int} {wanted shown : Signal}

theorem LeaveShown.closing (h : g.LeaveShown depth wanted shown) (held : Node) (fate : Fate) :
    shown.closing held fate = wanted.closing held fate := by
  cases wanted with
  | next | skip => obtain ⟨rfl | rfl, -⟩ := h <;> rfl
  | stop => rcases h with rfl | ⟨rfl | rfl, -⟩ <;> rfl
  | edit e => obtain ⟨rfl, -⟩ := h; rfl

theorem LeaveShown.stays {level : Nat} (h : g.LeaveShown level wanted shown) :
    g.Stays level (if wanted = .stop then some level else none)
      (if shown = .stop then some level else none) := by
  cases wanted with
  | next | skip =>
    obtain ⟨rfl | rfl, hguest⟩ := h
    · exact ⟨rfl, hguest⟩
    · exact ⟨rfl, hguest⟩
  | stop =>
    rcases h with rfl | ⟨rfl | rfl, hguest⟩
    · exact .inl rfl
    · exact .inr ⟨rfl, hguest⟩
    · exact .inr ⟨rfl, hguest⟩
  | edit e =>
    obtain ⟨rfl, hguest⟩ := h
    exact ⟨rfl, hguest⟩

end Guest

/-- The host's answer for a node, as its guest has it alone. -/
structure Answer.Matches (look : Γ → γ) (guest : τ → Guest σ) (level : Nat) (x : Answer Γ σ)
    (y : Answer Γ τ) : Prop where
  outcome : y.outcome = x.outcome
  context : look y.context = look x.context
  state : (guest y.state).state = x.state
  turn : ∀ fate, x.outcome = .ok fate → (guest y.state).Stays level x.stopDepth y.stopDepth

/-- The same for the children of a node. -/
structure Passage.Matches (look : Γ → γ) (guest : τ → Guest σ) (level : Nat) (p : Passage Γ σ)
    (q : Passage Γ τ) : Prop where
  entries : q.entries = p.entries
  edited : q.edited = p.edited
  context : look q.context = look p.context
  state : (guest q.state).state = p.state
  turn : ∀ entries, p.entries = .ok entries →
    (guest q.state).Stays level p.stopDepth q.stopDepth

/-- Of two runs with bounds, the second one has a matching result under some bound if the
first one has a result, and else it has none under the same bound. -/
def Tracks {α β : Type} (R : α → β → Prop) (depth : Nat) (alone : Option α)
    (hosted : Nat → Option β) : Prop :=
  match alone with
  | some x => ∃ larger y, hosted larger = some y ∧ R x y
  | none => hosted depth = none

section Leaving
variable {position : Position} {c d : Γ} {s : τ}

theorem leaveNode_matches (hosts : Hosts host v look guest) (held n : Node) (fate : Fate)
    (hlook : look c = look d) (hturn : (guest s).turn.resumed (guest s).depth = .visiting)
    (hdepth : (guest s).depth = (position.ancestors.length + 1 : Nat)) :
    (leaveNode v held n fate position d (guest s).state).Matches look guest
      position.ancestors.length (leaveNode host held n fate position c s) := by
  have hshows := hosts.leave_called ((fate.node? n).getD n) position c d s hlook hturn
  rw [hdepth, Int.natCast_add, Int.cast_ofNat_Int, Int.add_sub_cancel] at hshows
  cases hreply : (v.leave ((fate.node? n).getD n) position d (guest s).state).signal with
  | error e =>
    rw [leaveNode_error rfl hreply, leaveNode_error rfl (hshows.error e hreply)]
    exact ⟨rfl, hshows.context, hshows.state, fun _ h => by cases h⟩
  | ok wanted =>
    obtain ⟨signal, hsignal, hshown⟩ := hshows.signal wanted hreply
    rw [leaveNode_ok rfl hreply, leaveNode_ok rfl hsignal]
    exact ⟨congrArg Except.ok (hshown.closing held fate), hshows.context, hshows.state,
      fun _ _ => hshown.stays⟩

/-- What is concluded from matching children matches. -/
theorem conclude_matches (hosts : Hosts host v look guest) (held n : Node) (changed : Bool)
    {p : Passage Γ σ} {q : Passage Γ τ}
    (h : p.Matches look guest (position.ancestors.length + 1) q) :
    (p.conclude v held n changed position).Matches look guest position.ancestors.length
      (q.conclude host held n changed position) := by
  simp only [Passage.conclude, h.entries, h.edited]
  cases hentries : p.entries with
  | error e => exact ⟨rfl, h.context, h.state, fun _ h => by cases h⟩
  | ok entries =>
    have hturn := h.turn entries hentries
    cases hclose : closeNode n changed p.edited entries with
    | error e =>
      simp only [hclose]
      exact ⟨rfl, h.context, h.state, fun _ h => by cases h⟩
    | ok fate =>
      simp only [hclose]
      cases hstop : p.stopDepth with
      | none =>
        simp only [Guest.Stays, hstop] at hturn
        obtain ⟨hstop', hvisits, hdepth⟩ := hturn
        simp only [hstop', ← h.state]
        exact leaveNode_matches hosts held n fate h.context
          (by rw [hvisits, Turn.resumed_visiting]) hdepth
      | some stop =>
        simp only [Guest.Stays, hstop] at hturn
        rcases hturn with hstop' | ⟨hstop', hguest⟩
        · obtain ⟨stop', hstop'⟩ := Option.isSome_iff_exists.mp hstop'
          simp only [hstop']
          exact ⟨rfl, h.context, h.state, fun _ _ => .inl rfl⟩
        · -- The guest stopped, and the host leaves the node without it.
          simp only [hstop']
          obtain ⟨houtcome, hrests⟩ := leaveNode_aside hosts held n fate position q.context
            q.state (Turn.waitsAt_stopped _) hguest
          refine ⟨houtcome, hrests.context.trans h.context, hrests.state.trans h.state, ?_⟩
          intro _ _
          rcases hrests.turn with hgoes | ⟨hstops, -⟩
          · exact .inr hgoes
          · exact .inl hstops

end Leaving

/-- The walks of a host with a guest that takes part track those of the guest alone. -/
def WalksTrack (host : Visitor Γ τ) (v : Visitor Γ σ) (look : Γ → γ) (guest : τ → Guest σ)
    (depth : Nat) : Prop :=
  ∀ n (position : Position) c d s, look c = look d →
    ((guest s).opened position).IsAt .visiting position.ancestors.length →
    Tracks (Answer.Matches look guest position.ancestors.length) depth
      (walk v depth n position d (guest s).state) (walk host · n position c s)

/-- The children after one that the guest kept going from. -/
theorem Passage.Matches.after {level : Nat} {p : Passage Γ σ} {q : Passage Γ τ}
    (h : p.Matches look guest level q) (child : Node) (fate : Fate) :
    (p.after child fate).Matches look guest level (q.after child fate) where
  entries := by simp only [Passage.after, h.entries]
  edited := by simp only [Passage.after, h.edited]
  context := h.context
  state := h.state
  turn := by
    intro entries hentries
    cases hp : p.entries with
    | error e =>
      simp only [Passage.after, hp] at hentries
      cases hentries
    | ok entries => exact h.turn entries hp

theorem walkChildren_tracks (hosts : Hosts host v look guest) {depth : Nat}
    (ih : WalksTrack host v look guest depth) (parent : Node) (position : Position) :
    ∀ (children : List Child) (c d : Γ) (s : τ), look c = look d →
      (guest s).IsAt .visiting (position.ancestors.length + 1 : Nat) →
      Tracks (Passage.Matches look guest (position.ancestors.length + 1)) depth
        (walkChildren (walk v depth) parent position children d (guest s).state)
        (fun larger => walkChildren (walk host larger) parent position children c s) := by
  intro children
  induction children with
  | nil =>
    intro c d s hlook hguest
    exact ⟨0, _, rfl, rfl, rfl, hlook, rfl, fun _ _ => ⟨rfl, hguest⟩⟩
  | cons child children ihc =>
    intro c d s hlook hguest
    have hfirst := ih child.node (position.child parent child.key) c d s hlook (by
      rwa [Guest.opened_below (position.ancestors_child_ne parent child.key),
        Position.length_child])
    rw [Position.length_child] at hfirst
    cases hx : walk v depth child.node (position.child parent child.key) d (guest s).state with
    | none =>
      simp only [hx, Tracks] at hfirst
      simp only [walkChildren, hx, hfirst, Option.bind_eq_bind, Option.bind_none, Tracks]
    | some x =>
      simp only [hx, Tracks] at hfirst
      obtain ⟨larger, y, hy, hmatches⟩ := hfirst
      cases houtcome : x.outcome with
      | error e =>
        rw [walkChildren_error parent position hx houtcome]
        exact ⟨larger, _,
          walkChildren_error parent position hy (hmatches.outcome.trans houtcome) children,
          rfl, rfl, hmatches.context, hmatches.state, fun _ h => by cases h⟩
      | ok fate =>
        have houtcome' := hmatches.outcome.trans houtcome
        have hturn := hmatches.turn fate houtcome
        cases hstop : x.stopDepth with
        | some stop =>
          simp only [Guest.Stays, hstop] at hturn
          rw [walkChildren_stop parent position hx houtcome hstop]
          rcases hturn with hstop' | ⟨hstop', hguest'⟩
          · obtain ⟨stop', hstop'⟩ := Option.isSome_iff_exists.mp hstop'
            exact ⟨larger, _, walkChildren_stop parent position hy houtcome' hstop' children,
              rfl, rfl, hmatches.context, hmatches.state, fun _ _ => .inl rfl⟩
          · -- The host goes on to the other children, which stay as they are.
            obtain ⟨q, hq, hentries, hedited, hrests⟩ := walkChildren_aside
              (walk_aside hosts .stopped (sizeOf children)) parent position
              (Turn.waitsAt_stopped _) children y.context y.state
              (fun _ => Child.sizeOf_node_le) hguest'
            have hy := walk_le host (Nat.le_max_left larger (sizeOf children)) _ _ _ _ _ hy
            have hq := walkChildren_extends
              (walk_le host (Nat.le_max_right larger (sizeOf children))) _ _ _ _ _ _ hq
            refine ⟨max larger (sizeOf children), q.after child.node fate, ?_, ?_⟩
            · simp only [walkChildren_next parent position hy houtcome' hstop', hq,
                Option.map_some]
            · refine ⟨?_, ?_, hrests.context.trans hmatches.context,
                hrests.state.trans hmatches.state, fun _ _ => ?_⟩
              · simp only [Passage.after, hentries]
                rfl
              · simp only [Passage.after, hedited, Bool.or_false]
              · rcases hrests.turn with hgoes | ⟨hstops, -⟩
                · exact .inr hgoes
                · exact .inl hstops
        | none =>
          simp only [Guest.Stays, hstop] at hturn
          obtain ⟨hstop', hguest'⟩ := hturn
          have hrest := ihc y.context x.context y.state hmatches.context hguest'
          rw [hmatches.state] at hrest
          rw [walkChildren_next parent position hx houtcome hstop]
          cases hp : walkChildren (walk v depth) parent position children x.context x.state with
          | none =>
            -- If the host has an answer for the child under the same bound, it is this one.
            simp only [hp, Tracks] at hrest
            simp only [Option.map_none, Tracks]
            cases hy' : walk host depth child.node (position.child parent child.key) c s with
            | none => simp only [walkChildren, hy', Option.bind_eq_bind, Option.bind_none]
            | some y' =>
              rw [walk_unique hy' hy] at hy'
              simp only [walkChildren_next parent position hy' houtcome' hstop', hrest,
                Option.map_none]
          | some p =>
            simp only [hp, Tracks] at hrest
            obtain ⟨larger', q, hq, hrest⟩ := hrest
            have hy := walk_le host (Nat.le_max_left larger larger') _ _ _ _ _ hy
            have hq := walkChildren_extends
              (walk_le host (Nat.le_max_right larger larger')) _ _ _ _ _ _ hq
            refine ⟨max larger larger', q.after child.node fate, ?_, hrest.after child.node fate⟩
            simp only [walkChildren_next parent position hy houtcome' hstop', hq,
              Option.map_some]

/-- A walk below a node that the guest entered and went on from. -/
theorem descend_tracks (hosts : Hosts host v look guest) {depth : Nat}
    (ih : WalksTrack host v look guest depth) (n m : Node) (changed : Bool)
    (position : Position) (children : List Child) {c d : Γ} {s : τ} (hlook : look c = look d)
    (hguest : (guest s).IsAt .visiting (position.ancestors.length + 1 : Nat)) :
    Tracks (Answer.Matches look guest position.ancestors.length) depth
      ((walkChildren (walk v depth) m position children d (guest s).state).map
        (·.conclude v n m changed position))
      (fun larger => (walkChildren (walk host larger) m position children c s).map
        (·.conclude host n m changed position)) := by
  have htracks := walkChildren_tracks hosts ih m position children c d s hlook hguest
  cases hp : walkChildren (walk v depth) m position children d (guest s).state with
  | none =>
    simp only [hp, Tracks] at htracks
    simp only [Option.map_none, Tracks, htracks]
  | some p =>
    simp only [hp, Tracks] at htracks
    obtain ⟨larger, q, hq, hmatches⟩ := htracks
    refine ⟨larger, q.conclude host n m changed position, ?_,
      conclude_matches hosts n m changed hmatches⟩
    simp only [hq, Option.map_some]

/-- A walk below a node that the guest skipped: the host may walk its children. -/
theorem skip_tracks (hosts : Hosts host v look guest) (depth : Nat) (n : Node)
    (position : Position) (children : List Child) {c d : Γ} {s : τ} (hlook : look c = look d)
    (hguest : (guest s).IsAt (.skipping (position.ancestors.length + 1 : Nat))
      (position.ancestors.length + 1 : Nat)) :
    Tracks (Answer.Matches look guest position.ancestors.length) depth
      (some (leaveNode v n n .kept position d (guest s).state))
      (fun larger => (walkChildren (walk host larger) n position children c s).map
        (·.conclude host n n false position)) := by
  obtain ⟨q, hq, hentries, hedited, hrests⟩ := walkChildren_aside
    (walk_aside hosts _ (sizeOf children)) n position (Turn.waitsAt_skipping _) children c s
    (fun _ => Child.sizeOf_node_le) hguest
  refine ⟨sizeOf children, q.conclude host n n false position, by simp only [hq, Option.map_some], ?_⟩
  rcases hrests.turn with ⟨hstop, hturn, hdepth⟩ | ⟨-, hstopped⟩
  · simp only [Passage.conclude, hentries, hedited, closeNode, hstop, Bool.false_eq_true,
      if_false, ← hrests.state]
    exact leaveNode_matches hosts n n .kept (hrests.context.trans hlook)
      (by rw [hturn, hdepth, Turn.resumed_self]) hdepth
  · cases hstopped

/-- A walk below a node where the guest stopped, while the host went on. -/
theorem stop_tracks (hosts : Hosts host v look guest) (depth : Nat) (n : Node)
    (position : Position) (children : List Child) {c d : Γ} {s : τ} (hlook : look c = look d)
    (hguest : (guest s).IsAt .stopped (position.ancestors.length + 1 : Nat)) :
    Tracks (Answer.Matches look guest position.ancestors.length) depth
      (some ⟨.ok .kept, some position.ancestors.length, d, (guest s).state⟩)
      (fun larger => (walkChildren (walk host larger) n position children c s).map
        (·.conclude host n n false position)) := by
  obtain ⟨y, hy, houtcome, hrests⟩ := descend_aside hosts
    (walk_aside hosts .stopped (sizeOf children)) n children position c s
    (fun _ => Child.sizeOf_node_le) (Turn.waitsAt_stopped _) hguest
  refine ⟨sizeOf children, y, hy, houtcome, hrests.context.trans hlook, hrests.state, ?_⟩
  intro _ _
  rcases hrests.turn with hgoes | ⟨hstops, -⟩
  · exact .inr hgoes
  · exact .inl hstops

/-- The host's walk is the one below the node, where its signal says so. -/
theorem Tracks.entered {α : Type} {R : α → Answer Γ τ → Prop} {depth : Nat} {n m : Node}
    {position : Position} {c : Γ} {reply : Reply Γ τ} {s : τ} {signal : Signal}
    {changed : Bool} {children : List Child} {alone : Option α}
    (h : Tracks R depth alone fun larger =>
      (walkChildren (walk host larger) m position children reply.context reply.state).map
        (·.conclude host n m changed position))
    (hreply : host.enter n position c s = reply) (hsignal : reply.signal = .ok signal)
    (hopening : signal.opening n = .descend m changed children) :
    Tracks R (depth + 1) alone (walk host · n position c s) := by
  cases alone with
  | none => exact (walk_descend hreply hsignal hopening).trans h
  | some x =>
    obtain ⟨larger, y, hy, hmatches⟩ := h
    exact ⟨larger + 1, y, (walk_descend hreply hsignal hopening).trans hy, hmatches⟩

theorem walk_tracks (hosts : Hosts host v look guest) (depth : Nat) :
    WalksTrack host v look guest depth := by
  induction depth with
  | zero =>
    intro n position c d s _ _
    rfl
  | succ depth ih =>
    intro n position c d s hlook hguest
    have hshows := hosts.enter_called n position c d s hlook hguest.1
    rw [hguest.2] at hshows
    generalize hentered : host.enter n position c s = entered at hshows
    generalize hwanted : v.enter n position d (guest s).state = reply at hshows
    obtain ⟨replySignal, replyContext, replyState⟩ := reply
    obtain ⟨hcontext, rfl, herror, hshown⟩ := hshows
    cases replySignal with
    | error e =>
      rw [walk_error hwanted rfl]
      exact ⟨1, _, walk_error hentered (herror e rfl), rfl, hcontext, rfl,
        fun _ h => by cases h⟩
    | ok wanted =>
      obtain ⟨signal, hsignal, hshown⟩ := hshown wanted rfl
      -- Where the guest goes on, the host does so with the same signal.
      have hdescend : ∀ m changed children, wanted.opening n = .descend m changed children →
          signal = wanted ∧
            (guest entered.state).IsAt .visiting (position.ancestors.length + 1 : Nat) →
          Tracks (Answer.Matches look guest position.ancestors.length) (depth + 1)
            (walk v (depth + 1) n position d (guest s).state) (walk host · n position c s) := by
        rintro m changed children hopening ⟨rfl, hguest'⟩
        rw [walk_descend hwanted rfl hopening]
        exact (descend_tracks hosts ih n m changed position children hcontext hguest').entered
          hentered hsignal hopening
      cases wanted with
      | next => exact hdescend n false n.children rfl hshown
      | skip =>
        rw [walk_descend hwanted rfl rfl]
        obtain ⟨rfl | rfl, hguest'⟩ := hshown
        · exact (skip_tracks hosts depth n position n.children hcontext hguest').entered
            hentered hsignal rfl
        · exact (skip_tracks hosts depth n position [] hcontext hguest').entered
            hentered hsignal rfl
      | stop =>
        rw [walk_stopped hwanted rfl rfl]
        rcases hshown with rfl | ⟨rfl | rfl, hguest'⟩
        · exact ⟨1, _, walk_stopped hentered hsignal rfl, rfl, hcontext, rfl,
            fun _ _ => .inl rfl⟩
        · exact (stop_tracks hosts depth n position n.children hcontext hguest').entered
            hentered hsignal rfl
        · exact (stop_tracks hosts depth n position [] hcontext hguest').entered
            hentered hsignal rfl
      | edit e =>
        cases e with
        | keep => exact hdescend n false n.children rfl hshown
        | replace r => exact hdescend r true r.children rfl hshown
        | restore r => exact hdescend r (r ≠ n) r.children rfl hshown
        | delete =>
          obtain ⟨rfl, hguest'⟩ := hshown
          rw [walk_deleted hwanted rfl rfl]
          exact ⟨1, _, walk_deleted hentered hsignal rfl, rfl, hcontext, rfl,
            fun _ _ => ⟨rfl, hguest'⟩⟩

end Transparent

/-! ## The same walks -/

/-- What a visitor's walk ends with, as another visitor's walk of the same tree ends. -/
structure Answer.Same {Γ γ σ τ : Type} (look : Γ → γ) (own : τ → σ) (x : Answer Γ σ)
    (y : Answer Γ τ) : Prop where
  outcome : y.outcome = x.outcome
  context : look y.context = look x.context
  state : own y.state = x.state

/-- A walk of any tree ends with a visitor if and only if it ends with a host of it, and
then with the same result, the same shown context and the same state of the visitor. -/
def Visitor.SameWalks {Γ γ σ τ : Type} (v : Visitor Γ σ) (host : Visitor Γ τ) (look : Γ → γ)
    (own : τ → σ) : Prop :=
  ∀ root c s, EndAlike (Answer.Same look own) root v c (own s) host c s

section Same
variable {Γ γ σ τ : Type} {look : Γ → γ}

theorem Hosts.sameWalks {host : Visitor Γ τ} {v : Visitor Γ σ} {guest : τ → Guest σ}
    (hosts : Hosts host v look guest) : v.SameWalks host look fun s => (guest s).state := by
  intro root c s
  have htracks : ∀ depth, Tracks (Answer.Matches look guest 0) depth
      (walk v depth root .root c (guest s).state) (walk host · root .root c s) :=
    fun depth => walk_tracks hosts depth root .root c c s rfl ⟨rfl, rfl⟩
  have hforward : ∀ x, v.Ends root c (guest s).state x →
      ∃ y, host.Ends root c s y ∧ x.Same look (fun s => (guest s).state) y := by
    intro x hx
    obtain ⟨depth, hx⟩ := Visitor.ends_iff.mp hx
    have h := htracks depth
    rw [hx] at h
    obtain ⟨larger, y, hy, hmatches⟩ := h
    exact ⟨y, Visitor.ends_iff.mpr ⟨larger, hy⟩, hmatches.outcome, hmatches.context,
      hmatches.state⟩
  refine ⟨hforward, ?_⟩
  intro y hy
  obtain ⟨depth, hy⟩ := Visitor.ends_iff.mp hy
  have h := htracks depth
  cases hx : walk v depth root .root c (guest s).state with
  | none =>
    rw [hx] at h
    cases hy.symm.trans h
  | some x =>
    rw [hx] at h
    obtain ⟨larger, y', hy', hmatches⟩ := h
    rw [← walk_unique hy hy'] at hmatches
    exact ⟨x, Visitor.ends_iff.mpr ⟨depth, hx⟩, hmatches.outcome, hmatches.context,
      hmatches.state⟩

/-- An observer is transparent, before another visitor and after it. Alone and in the pair
the visitor's walks end with the same result and with the same calls on record. The same
holds when any number of calls is all that the visitor answers: such walks always end, so
its calls are the same in walks without end, too. -/
theorem observer_transparent (a : Visitor Γ σ) (b : Visitor Γ τ) (look : Γ → γ)
    (ha : a.Sees look) (hb : b.Observes look) (e : Error) :
    (a.recorded.SameWalks (a.recorded.compose b) look (·.first.state) ∧
      a.recorded.SameWalks (b.compose a.recorded) look (·.second.state)) ∧
    ((a.recorded.limited e).SameWalks ((a.recorded.limited e).compose b) look (·.first.state) ∧
      (a.recorded.limited e).SameWalks (b.compose (a.recorded.limited e)) look
        (·.second.state)) ∧
    ∀ root c s, ∃ x, (a.recorded.limited e).Ends root c s x := by
  refine ⟨⟨?_, ?_⟩, ⟨?_, ?_⟩, ?_⟩
  · exact (compose_hosts_first ha.recorded hb).sameWalks
  · exact (compose_hosts_second ha.recorded hb).sameWalks
  · exact (compose_hosts_first (ha.recorded.limited e) hb).sameWalks
  · exact (compose_hosts_second (ha.recorded.limited e) hb).sameWalks
  · intro root c s
    obtain ⟨x, hx, -⟩ := walk_limited (e := e) (v := a.recorded) (s.1 + 1) root .root c s
      (Nat.lt_succ_self _)
    exact ⟨x, Visitor.ends_iff.mpr ⟨_, hx⟩⟩

end Same

/-- Counts the nodes in the first half of the context and skips them. -/
def countSkipping : Visitor (Nat × Nat) Unit :=
  ⟨fun _ _ c s => ⟨.ok .skip, (c.1 + 1, c.2), s⟩, Hook.idle⟩

/-- Counts the nodes in the second half of the context and stops. -/
def countStopping : Visitor (Nat × Nat) Unit :=
  ⟨fun _ _ c s => ⟨.ok .stop, (c.1, c.2 + 1), s⟩, Hook.idle⟩

theorem observer_transparent_stopping :
    countSkipping.Sees Prod.fst ∧ countStopping.Observes Prod.fst ∧
    ∃ y, (countSkipping.recorded.compose countStopping).Ends (.variable ⟨⟨"a"⟩⟩) (0, 0)
        (.start ((), []) ()) y ∧
      y.outcome = .ok .kept ∧ y.context.1 = 1 ∧
      y.state.first.state.2.map (·.phase) = [.entering, .leaving] := by
  have hsees : countSkipping.Sees Prod.fst :=
    ⟨fun _ _ _ _ _ h => ⟨rfl, rfl, congrArg (· + 1) h⟩, fun _ _ _ _ _ h => ⟨rfl, rfl, h⟩⟩
  have hobserves : countStopping.Observes Prod.fst :=
    ⟨fun _ _ _ _ => ⟨⟨_, rfl, .inr (.inr rfl)⟩, rfl⟩, fun _ _ _ _ => ⟨⟨_, rfl, .inl rfl⟩, rfl⟩⟩
  have hsame := (observer_transparent countSkipping countStopping Prod.fst hsees hobserves
    .noOperation).1.1
  obtain ⟨y, hy, houtcome, hcontext, hstate⟩ :=
    (hsame (.variable ⟨⟨"a"⟩⟩) (0, 0) (.start ((), []) ())).1 _ ⟨2, rfl⟩
  exact ⟨hsees, hobserves, y, hy, houtcome, hcontext, by rw [hstate]; rfl⟩

end QueryDoc
