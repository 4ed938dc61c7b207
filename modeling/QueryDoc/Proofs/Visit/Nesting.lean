import Mathlib.Control.Monad.Basic
import QueryDoc.Proofs.Visit.Steady

/-! What nesting means for visitors. In a steady team it means nothing: skips last as long as
they do side by side, the counts of all pairs are right, and teams of three visitors are the
same however they are put together. Where a pair is overruled, its count is wrong from then
on, and its visitors wait for nodes that are not left or resume below nodes they skipped. -/
namespace QueryDoc

/-! ## Visitors by rules -/

/-- Follows a rule on entering nodes. -/
def Visitor.entering (rule : Node → Signal) : Visitor Unit Unit :=
  ⟨fun n _ c s => ⟨.ok (rule n), c, s⟩, Hook.idle⟩

/-- Follows a rule on leaving nodes. -/
def Visitor.leaving (rule : Node → Signal) : Visitor Unit Unit :=
  ⟨Hook.idle, fun n _ c s => ⟨.ok (rule n), c, s⟩⟩

/-- What to do at one node. -/
def Signal.only (signal : Signal) (here n : Node) : Signal := if n = here then signal else .next

theorem Visitor.never_entering {rule : Node → Signal} {bad : Signal → Prop}
    (hrule : ∀ n, ¬ bad (rule n)) (hnext : ¬ bad .next) (phase : Phase) :
    ((Visitor.entering rule).hook phase).Never bad := by
  cases phase with
  | entering =>
    rintro n position c s signal ⟨⟩
    exact hrule n
  | leaving =>
    rintro n position c s signal ⟨⟩
    exact hnext

theorem Signal.not_only {bad : Signal → Prop} {signal : Signal} (h : ¬ bad signal)
    (hnext : ¬ bad .next) (here n : Node) : ¬ bad (signal.only here n) := by
  unfold only
  split
  · exact h
  · exact hnext

/-- A list of truth values. -/
def flags (bs : List Bool) : Node := .value (.list (bs.map .boolean))

def flag (b : Bool) : Node := .value (.boolean b)

/-! ## Skips -/

/-- The same result, context and own states of the visitors. -/
structure Team.SameAnswer {γ σ ρ : Type} (t : Team γ σ ρ) (x : Answer γ σ) (y : Answer γ ρ) :
    Prop where
  outcome : x.outcome = y.outcome
  stopDepth : x.stopDepth = y.stopDepth
  context : x.context = y.context
  state : t.Same x.state y.state

section Steady
variable {γ σ τ ρ ς : Type} {a : Team γ σ ρ} {b : Team γ τ ς}

/-- Whatever keeps step with the team ends its walks with the same answers. -/
theorem Team.sameAnswer_of_lockstep {w : Visitor γ (Pair σ τ)} {w' : Visitor γ (ρ × ς)}
    (h : Lockstep w w' fun level p r => (Team.pair a b).Settled level .visiting p r)
    (root : Node) (c : γ) {p : Pair σ τ} {r : ρ × ς} (hsame : (Team.pair a b).Same p r) :
    w.EndAlike (Team.pair a b).SameAnswer root c p w' c r :=
  (h.endAlike root c ⟨hsame, nofun⟩).imp
    fun _ _ h => ⟨h.outcome, h.stopDepth, h.context, h.state.1⟩

/-- The walks of a steady team, however its counts are kept, are those side by side. -/
theorem Team.Steady.nests_endAlike (hsteady : (Team.pair a b).Steady)
    {w : Visitor γ (Pair σ τ)} (hw : (Team.pair a b).Nests w) (root : Node) (c : γ)
    {p : Pair σ τ} {r : ρ × ς} (hsame : (Team.pair a b).Same p r) :
    w.EndAlike (Team.pair a b).SameAnswer root c p (Team.pair a b).flat c r :=
  Team.sameAnswer_of_lockstep (hsteady.lockstep hw) root c hsame

/-- The team side by side, with an error as the answer to a call where somebody waits for a
node that is not open. -/
def Team.watched {σ ρ : Type} (e : Error) (t : Team γ σ ρ) : Visitor γ ρ where
  enter n position c r :=
    if ∀ u ∈ t.turns (if position.ancestors.isEmpty then t.fresh r else r),
        u.Within position.ancestors.length then t.flat.enter n position c r
    else ⟨.error e, c, r⟩
  leave n position c r :=
    if ∀ u ∈ t.turns r, u.Within (position.ancestors.length + 1) then t.flat.leave n position c r
    else ⟨.error e, c, r⟩

/-- In a steady team a visitor that skips a node is paused until that very node is left or
deleted, at whatever place in the team it is: the visitors do what they do side by side, and
there nobody ever waits for a node that is not open. -/
theorem steady_sideBySide (hsteady : (Team.pair a b).Steady) (e : Error) (root : Node) (c : γ)
    (p : Pair σ τ) (r : ρ × ς) (hsame : (Team.pair a b).Same p r) :
    (Team.pair a b).visitor.EndAlike (Team.pair a b).SameAnswer root c p
      ((Team.pair a b).watched e) c r := by
  have hlockstep := (hsteady.lockstep (Team.pair a b).nests_visitor).congr_right
    ((Team.pair a b).watched e) (fun n position c s t h => if_pos h.ready_opened.within)
    (fun n position c s t h => if_pos (h.2 (Nat.succ_pos _)).within)
  exact Team.sameAnswer_of_lockstep hlockstep root c hsame

end Steady

/-- A pair of a visitor that skips and one that does nothing, and then another visitor. -/
def skippingTeam (last : Visitor Unit Unit) :
    Team Unit (Pair (Pair (Unit × List Call) Unit) Unit)
      ((Seat (Unit × List Call) × Seat Unit) × Seat Unit) :=
  .pair (.pair (.leaf (Visitor.entering (Signal.skip.only (flag false))).recorded)
    (.leaf (.entering fun _ => .next))) (.leaf last)

theorem steady_skippingTeam :
    (skippingTeam (.leaving (.only (.edit .delete) (flag false)))).Steady :=
  ⟨⟨trivial, trivial, nofun, nofun⟩, trivial,
    fun _ => by rintro n position c s signal ⟨⟩ ⟨⟩, nofun⟩

/-- The visitor that skipped a node has a call on leaving it, after which the last visitor
deletes the node, and then calls for the node beside it. -/
theorem steady_sideBySide_skipping :
    let t := skippingTeam (.leaving (.only (.edit .delete) (flag false)))
    t.Steady ∧
    ∃ y, (t.watched .noOperation).Ends (flags [false, true]) ()
        ((⟨.visiting, (), []⟩, ⟨.visiting, ()⟩), ⟨.visiting, ()⟩) y ∧
      y.outcome = .ok (.changed (flags [true])) ∧
      y.state.1.1.state.2.map (·.node) =
        [flags [false, true], flag false, flag false, flag true, flag true, flags [true]] := by
  have hrun : (visit 20 (skippingTeam (.leaving (.only (.edit .delete) (flag false)))).visitor
      (flags [false, true]) () (.start (.start ((), []) ()) ())).map
        (fun x => (x.outcome, x.state.first.state.first.state.2.map (·.node))) =
      some (.ok (.changed (flags [true])),
        [flags [false, true], flag false, flag false, flag true, flag true, flags [true]]) := by
    decide +kernel
  obtain ⟨x, hx, hresult⟩ := Option.map_eq_some_iff.mp hrun
  obtain ⟨houtcome, hcalls⟩ := Prod.mk.inj hresult
  obtain ⟨y, hy, hsame⟩ := (steady_sideBySide steady_skippingTeam .noOperation
    (flags [false, true]) () (.start (.start ((), []) ()) ()) ((⟨.visiting, (), []⟩, ⟨.visiting, ()⟩), ⟨.visiting, ()⟩)
    ⟨⟨rfl, rfl⟩, rfl⟩).1 x ⟨20, hx⟩
  refine ⟨steady_skippingTeam, y, hy, hsame.outcome.symm.trans houtcome, ?_⟩
  rw [hsame.state.1.1]
  exact hcalls

/-- Where the last visitor deletes the node on entering it, the visitor that skipped it has no
calls for the node beside it, though side by side it has them. -/
theorem skip_outlasts_node :
    let t := skippingTeam (.entering (.only (.edit .delete) (flag false)))
    (visit 20 t.visitor (flags [false, true]) () (.start (.start ((), []) ()) ())).map
        (·.state.first.state.first.state.2.map (·.node)) =
      some [flags [false, true], flag false, flags [true]] ∧
    (visit 20 t.flat (flags [false, true]) ()
        ((⟨.visiting, (), []⟩, ⟨.visiting, ()⟩), ⟨.visiting, ()⟩)).map
        (·.state.1.1.state.2.map (·.node)) =
      some [flags [false, true], flag false, flag true, flag true, flags [true]] := by
  decide +kernel

/-! ## Counts -/

/-- Answers with an error where a pair's count is not how deep the node is. -/
def Visitor.counted {γ σ τ : Type} (e : Error) (v : Visitor γ (Pair σ τ)) :
    Visitor γ (Pair σ τ) where
  enter n position c p :=
    if (p.opened position).depth = position.ancestors.length then v.enter n position c p
    else ⟨.error e, c, p⟩
  leave n position c p :=
    if p.depth = position.ancestors.length + 1 then v.leave n position c p
    else ⟨.error e, c, p⟩

/-- The team as one visitor, with every pair's count checked at every call. -/
def Team.counted {γ σ ρ : Type} (e : Error) : Team γ σ ρ → Visitor γ σ
  | .leaf v => v
  | .pair a b => ((a.counted e).compose (b.counted e)).counted e

theorem Team.nests_counted {γ σ ρ : Type} (e : Error) (t : Team γ σ ρ) :
    t.Nests (t.counted e) := by
  induction t with
  | leaf v => rfl
  | pair a b iha ihb =>
    exact ⟨a.counted e, b.counted e, iha, ihb, fun _ _ _ _ h => if_pos h,
      fun _ _ _ _ h => if_pos h⟩

section Steady
variable {γ σ τ ρ ς : Type} {a : Team γ σ ρ} {b : Team γ τ ς}

/-- In a steady team every pair counts right: with the counts checked at every call a walk
has the same result, whatever error a wrong count would be answered with. -/
theorem steady_counted (hsteady : (Team.pair a b).Steady) (e : Error) (root : Node) (c : γ)
    (p : Pair σ τ) (r : ρ × ς) (hsame : (Team.pair a b).Same p r) :
    (Team.pair a b).visitor.EndAlike
      (fun x y => x.outcome = y.outcome ∧ x.context = y.context ∧
        ∃ r, (Team.pair a b).Same x.state r ∧ (Team.pair a b).Same y.state r)
      root c p ((Team.pair a b).counted e) c p := by
  have hvisitor := hsteady.nests_endAlike (Team.pair a b).nests_visitor root c hsame
  have hcounted := hsteady.nests_endAlike ((Team.pair a b).nests_counted e) root c hsame
  refine (hvisitor.trans hcounted.symm).imp ?_
  rintro x y ⟨z, hxz, hyz⟩
  exact ⟨hxz.outcome.trans hyz.outcome.symm, hxz.context.trans hyz.context.symm, z.state,
    hxz.state, hyz.state⟩

end Steady

theorem steady_counted_skipping :
    let t := skippingTeam (.leaving (.only (.edit .delete) (flag false)))
    t.Steady ∧
    ∃ y, (t.counted .noOperation).Ends (flags [false, true]) ()
        (.start (.start ((), []) ()) ()) y ∧
      y.outcome = .ok (.changed (flags [true])) := by
  have hrun : (visit 20 (skippingTeam (.leaving (.only (.edit .delete) (flag false)))).visitor
      (flags [false, true]) () (.start (.start ((), []) ()) ())).map (·.outcome) =
      some (.ok (.changed (flags [true]))) := by
    decide +kernel
  obtain ⟨x, hx, houtcome⟩ := Option.map_eq_some_iff.mp hrun
  obtain ⟨y, hy, hsame⟩ := (steady_counted steady_skippingTeam .noOperation (flags [false, true]) ()
    (.start (.start ((), []) ()) ()) ((⟨.visiting, (), []⟩, ⟨.visiting, ()⟩), ⟨.visiting, ()⟩)
    ⟨⟨rfl, rfl⟩, rfl⟩).1 x ⟨20, hx⟩
  exact ⟨steady_skippingTeam, y, hy, hsame.1.symm.trans houtcome⟩

/-- After a walk of two nodes in a list, the inner pair of a team counts one node too many
where the visitor before it deleted a node on leaving it. Where the pair deletes a node that
the visitor before it had kept, it even counts one less than none. -/
theorem count_drifts :
    let idle := Visitor.entering fun _ => .next
    let remover := Visitor.leaving (.only (.edit .delete) (flag false))
    let keeper := Visitor.entering (.only (.edit .keep) (flag false))
    let deleter := Visitor.entering (.only (.edit .delete) (flag false))
    (visit 20 (remover.compose (idle.compose idle)) (flags [false, true]) ()
      (.start () (.start () ()))).map (·.state.second.state.depth) = some 1 ∧
    (visit 20 (keeper.compose (deleter.compose idle)) (flag false) ()
      (.start () (.start () ()))).map (·.state.second.state.depth) = some (-1) := by
  decide +kernel

/-! ## Three visitors -/

section Three
variable {γ σ τ υ ρ ς χ : Type}

theorem Called.andThen_assoc {α β δ : Type} (called : Called γ α) (s : β) (t : δ)
    (f : β → Pass → γ → Called γ β) (g : δ → Pass → γ → Called γ δ) :
    called.andThen (s, t) (fun st p c => (f st.1 p c).andThen st.2 g) =
      let left := (called.andThen s f).andThen t g
      ⟨left.pass, left.context, (left.seats.1.1, left.seats.1.2, left.seats.2)⟩ := by
  obtain ⟨pass, c, r⟩ := called
  cases pass with
  | error e => rfl
  | ok p =>
    cases hdeleted : p.isDeleted with
    | true => simp only [andThen, hdeleted, if_true]
    | false =>
      cases hpass : (f s p c).pass with
      | error e => simp only [andThen, hdeleted, hpass, Bool.false_eq_true, if_false]
      | ok q =>
        cases hdeleted' : q.isDeleted <;>
          simp only [andThen, hdeleted, hpass, hdeleted', Bool.false_eq_true, if_false, if_true]

/-- Side by side it makes no difference how three groups are put together. -/
theorem flat_assoc (a : Team γ σ ρ) (b : Team γ τ ς) (c : Team γ υ χ) :
    Lockstep (Team.pair (.pair a b) c).flat (Team.pair a (.pair b c)).flat
      fun _ r r' => r' = (r.1.1, r.1.2, r.2) := by
  have hcalls : ∀ phase depth position r n c',
      (Team.pair a (.pair b c)).callAll phase depth position (r.1.1, r.1.2, r.2) (.start n) c' =
        let left := (Team.pair (.pair a b) c).callAll phase depth position r (.start n) c'
        ⟨left.pass, left.context, (left.seats.1.1, left.seats.1.2, left.seats.2)⟩ := by
    intro phase depth position r n c'
    exact Called.andThen_assoc _ r.1.2 r.2 (b.callAll phase depth position)
      (c.callAll phase depth position)
  have hturns : ∀ r, (Team.pair a (.pair b c)).turns (r.1.1, r.1.2, r.2) =
      (Team.pair (.pair a b) c).turns r := by
    intro r
    exact (List.append_assoc _ _ _).symm
  refine ⟨fun _ _ _ h => h, ?_, ?_⟩
  · rintro n position c' r _ rfl
    have hopened : ∀ again : Bool,
        (if again then (Team.pair a (.pair b c)).fresh (r.1.1, r.1.2, r.2)
          else (r.1.1, r.1.2, r.2)) =
        let r' := if again then (Team.pair (.pair a b) c).fresh r else r
        (r'.1.1, r'.1.2, r'.2) := by
      intro again
      cases again <;> rfl
    simp only [Team.flat, hopened, hcalls]
    generalize (Team.pair (.pair a b) c).callAll .entering _ _ _ _ _ = left
    obtain ⟨pass, c', r'⟩ := left
    cases pass with
    | error e => exact ⟨rfl, rfl, rfl⟩
    | ok q =>
      refine ⟨?_, rfl, ?_⟩
      · simp only [hturns]
      · cases hdeleted : q.isDeleted <;> simp only [hdeleted, if_true, Bool.false_eq_true, if_false]
        rfl
  · rintro n position c' r _ rfl
    simp only [Team.flat, hcalls]
    generalize (Team.pair (.pair a b) c).callAll .leaving _ _ _ _ _ = left
    obtain ⟨pass, c', r'⟩ := left
    cases pass with
    | error e => exact ⟨rfl, rfl, rfl⟩
    | ok q =>
      have hresumed : ∀ depth, (Team.pair a (.pair b c)).resumed depth (r'.1.1, r'.1.2, r'.2) =
          let left := (Team.pair (.pair a b) c).resumed depth r'
          (left.1.1, left.1.2, left.2) := fun _ => rfl
      refine ⟨?_, rfl, rfl⟩
      simp only [hresumed, hturns]

/-- Answers of teams of three, the same but for how the three are put together. -/
structure Answer.Reassociated (x : Answer γ (Pair (Pair σ τ) υ)) (y : Answer γ (Pair σ (Pair τ υ))) :
    Prop where
  outcome : x.outcome = y.outcome
  stopDepth : x.stopDepth = y.stopDepth
  context : x.context = y.context
  first : x.state.first.state.first.state = y.state.first.state
  second : x.state.first.state.second.state = y.state.second.state.first.state
  third : x.state.second.state = y.state.second.state.second.state

theorem Hook.Never.recorded {hook : Hook γ σ} {bad : Signal → Prop} (h : hook.Never bad)
    (phase : Phase) : (hook.recorded phase).Never bad :=
  fun n position c s signal hsignal => h n position c s.1 signal hsignal

theorem Visitor.never_recorded {v : Visitor γ σ} {bad : Signal → Prop} (phase : Phase)
    (h : (v.hook phase).Never bad) : (v.recorded.hook phase).Never bad := by
  cases phase with
  | entering => exact Hook.Never.recorded h .entering
  | leaving => exact Hook.Never.recorded h .leaving

/-- Three visitors do the same however they are put together, if the last one deletes no node
that it enters, the first one none that it leaves, and in each phase either the first one or
the other two make no edits. They have the same calls on record and the walks the same
result. -/
theorem compose_assoc (a : Visitor γ σ) (b : Visitor γ τ) (c : Visitor γ υ)
    (hlast : c.enter.Never Signal.IsDelete) (hfirst : a.leave.Never Signal.IsDelete)
    (hedits : ∀ phase, (a.hook phase).Never Signal.IsEdit ∨
      (b.hook phase).Never Signal.IsEdit ∧ (c.hook phase).Never Signal.IsEdit)
    (root : Node) (context : γ) (s : σ × List Call) (t : τ × List Call) (u : υ × List Call) :
    ((a.recorded.compose b.recorded).compose c.recorded).EndAlike Answer.Reassociated root
      context (.start (.start s t) u)
      (a.recorded.compose (b.recorded.compose c.recorded)) context (.start s (.start t u)) := by
  have hleft : (Team.pair (.pair (.leaf a.recorded) (.leaf b.recorded))
      (.leaf c.recorded)).Steady :=
    ⟨⟨trivial, trivial, nofun, nofun⟩, trivial,
      fun _ => Visitor.never_recorded .entering hlast, nofun⟩
  have hright : (Team.pair (.leaf a.recorded)
      (.pair (.leaf b.recorded) (.leaf c.recorded))).Steady := by
    refine ⟨trivial, ⟨trivial, trivial, nofun, nofun⟩, nofun, fun _ =>
      ⟨Visitor.never_recorded .leaving hfirst, fun phase => ?_⟩⟩
    rcases hedits phase with h | ⟨h, h'⟩
    · exact .inl (Visitor.never_recorded phase h)
    · exact .inr ⟨Visitor.never_recorded phase h, Visitor.never_recorded phase h'⟩
  have hnested := hleft.nests_endAlike (Team.nests_visitor _) root context
    (p := .start (.start s t) u)
    (r := ((⟨.visiting, s⟩, ⟨.visiting, t⟩), ⟨.visiting, u⟩)) ⟨⟨rfl, rfl⟩, rfl⟩
  have hnested' := hright.nests_endAlike (Team.nests_visitor _) root context
    (p := .start s (.start t u))
    (r := (⟨.visiting, s⟩, ⟨.visiting, t⟩, ⟨.visiting, u⟩)) ⟨rfl, rfl, rfl⟩
  have hflat := (flat_assoc (.leaf a.recorded) (.leaf b.recorded) (.leaf c.recorded)).endAlike
    root context (s := ((⟨.visiting, s⟩, ⟨.visiting, t⟩), ⟨.visiting, u⟩)) rfl
  refine (hnested.trans (hflat.trans hnested'.symm)).imp ?_
  rintro x y ⟨x', hx, y', hflat, hy⟩
  obtain ⟨⟨hfirst, hsecond⟩, hthird⟩ := hx.state
  have hstate : y'.state = (x'.state.1.1, x'.state.1.2, x'.state.2) := hflat.state
  have hy' := hy.state
  rw [hstate] at hy'
  obtain ⟨hfirst', hsecond', hthird'⟩ := hy'
  exact ⟨(hx.outcome.trans hflat.outcome).trans hy.outcome.symm,
    (hx.stopDepth.trans hflat.stopDepth).trans hy.stopDepth.symm,
    (hx.context.trans hflat.context).trans hy.context.symm,
    hfirst.symm.trans hfirst', hsecond.symm.trans hsecond', hthird.symm.trans hthird'⟩

end Three

theorem compose_assoc_skipping :
    let skipper := Visitor.entering (.only .skip (flag false))
    let idle := Visitor.entering fun _ => .next
    let remover := Visitor.leaving (.only (.edit .delete) (flag false))
    ∃ y, (skipper.recorded.compose (idle.recorded.compose remover.recorded)).Ends
        (flags [false, true]) () (.start ((), []) (.start ((), []) ((), []))) y ∧
      y.outcome = .ok (.changed (flags [true])) := by
  have hlast : (Visitor.leaving (.only (.edit .delete) (flag false))).enter.Never
      Signal.IsDelete := by
    rintro n position c s signal ⟨⟩ ⟨⟩
  have hfirst : (Visitor.entering (.only .skip (flag false))).leave.Never Signal.IsDelete := by
    rintro n position c s signal ⟨⟩ ⟨⟩
  have hrun : (visit 20 (((Visitor.entering (.only .skip (flag false))).recorded.compose
      (Visitor.entering fun _ => .next).recorded).compose
      (Visitor.leaving (.only (.edit .delete) (flag false))).recorded) (flags [false, true]) ()
      (.start (.start ((), []) ((), [])) ((), []))).map (·.outcome) =
      some (.ok (.changed (flags [true]))) := by
    decide +kernel
  obtain ⟨x, hx, houtcome⟩ := Option.map_eq_some_iff.mp hrun
  obtain ⟨y, hy, hsame⟩ := (compose_assoc (.entering (.only .skip (flag false)))
    (.entering fun _ => .next) (.leaving (.only (.edit .delete) (flag false))) hlast hfirst
    (fun phase => .inl (Visitor.never_entering (Signal.not_only nofun nofun _) nofun phase))
    (flags [false, true]) () ((), []) ((), []) ((), [])).1 x ⟨20, hx⟩
  exact ⟨y, hy, hsame.outcome.symm.trans houtcome⟩

/-- Put together from the left the first visitor does not see the node beside the one that it
skipped and the last one deleted, and put together from the right it does. -/
theorem compose_not_assoc :
    let first := Visitor.entering fun n =>
      if n = flag false then .skip else Signal.only (.edit (.replace (flag false))) (flag true) n
    let idle := Visitor.entering fun _ => .next
    let last := Visitor.entering (.only (.edit .delete) (flag false))
    (visit 20 ((first.compose idle).compose last) (flags [false, true]) ()
      (.start (.start () ()) ())).map (·.outcome) = some (.ok (.changed (flags [true]))) ∧
    (visit 20 (first.compose (idle.compose last)) (flags [false, true]) ()
      (.start () (.start () ()))).map (·.outcome) = some (.ok (.changed (flags [false]))) := by
  decide +kernel
end QueryDoc
