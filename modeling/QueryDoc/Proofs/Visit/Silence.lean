import QueryDoc.Proofs.Tree.Smaller
import QueryDoc.Proofs.Visit.Upkeep

/-! To stop is to fall silent. A visitor that stops a walk gets the tree that it would
have got by wanting nothing from that call on: below the open nodes a silent visitor keeps
every child, and it leaves each open node with what the edits before have made of it. -/
namespace QueryDoc

variable {γ σ : Type}

/-- Answers like a hook as long as calls are left, and wants nothing from then on. -/
def Hook.quieted (hook : Hook γ σ) : Hook γ (Nat × σ) :=
  fun n position context s =>
    match s.1 with
    | 0 => ⟨.ok .next, context, s⟩
    | left + 1 =>
      let reply := hook n position context s.2
      ⟨reply.signal, reply.context, left, reply.state⟩

namespace Visitor

/-- The visitor for as many calls as its state says; from then on it wants nothing. -/
def quieted (v : Visitor γ σ) : Visitor γ (Nat × σ) := ⟨v.enter.quieted, v.leave.quieted⟩

/-! ## Silence -/

section Silent
variable (v : Visitor γ σ) (position : Position) (c : γ) (s : σ)

/-- What a silent visitor leaves is what there was. -/
theorem leaveNode_silent (held n : Node) (fate : Fate) :
    leaveNode v.quieted held n fate position c (0, s) = ⟨.ok fate, none, c, (0, s)⟩ := rfl

theorem passes_silent (parent : Node) (children : List Child)
    (h : ∀ child ∈ children, ∀ position,
      v.quieted.Gives child.node position c (0, s) ⟨.ok .kept, none, c, (0, s)⟩) :
    v.quieted.Passes parent position children c (0, s)
      ⟨.ok (children.map (some ·.node)), false, none, c, (0, s)⟩ := by
  induction children with
  | nil => exact .nil
  | cons child children ih =>
    have hrest := ih fun other hother => h other (List.mem_cons_of_mem _ hother)
    exact Passes.cons (h child List.mem_cons_self _) rfl rfl hrest

/-- A silent visitor walks to the end of any tree, since it puts nothing larger in the place
of a node, and keeps it. -/
theorem gives_silent (n : Node) :
    ∀ position, v.quieted.Gives n position c (0, s) ⟨.ok .kept, none, c, (0, s)⟩ := by
  induction hsize : sizeOf n using Nat.strongRecOn generalizing n with
  | ind size ih =>
    intro position
    have hreply : v.quieted.enter n position c (0, s) = ⟨.ok .next, c, (0, s)⟩ := rfl
    have hchildren := passes_silent v position c s n n.children
      fun child hchild => ih _ (hsize ▸ Node.sizeOf_child hchild) child.node rfl
    exact Gives.descend hreply rfl rfl hchildren

end Silent

/-! ## What was heard before -/

/-- No call in a log was answered with a stop. -/
def Unstopped (log : List Event) : Prop := ∀ ev ∈ log, ev.signal ≠ .ok .stop

/-- How a part of a walk with a log compares with the runs of the visitor that falls silent.
A part that went through is run likewise with as many calls as it took, and any number of
further calls stays unused. A part that stopped comes to the same result if just the calls
before the last one are answered. -/
inductive Echoes {ρ : Type} (log : List Event) (run : Nat → ρ → γ → Nat × σ → Prop) (r : ρ) :
    Option Nat → γ → σ × List Event → Prop where
  | through {new : List Event} {c : γ} {s : σ} :
      Unstopped new → (∀ left, run (new.length + left) r c (left, s)) →
      Echoes log run r none c (s, log ++ new)
  | stopped {new : List Event} {last : Event} {d : Nat} {c c' : γ} {s s' : σ} :
      Unstopped new → run new.length r c' (0, s') →
      Echoes log run r (some d) c (s, log ++ (new ++ [last]))

namespace Echoes

variable {ρ ρ' : Type} {log new : List Event} {run : Nat → ρ → γ → Nat × σ → Prop}
variable {run' : Nat → ρ' → γ → Nat × σ → Prop} {r : ρ} {r' : ρ'} {d : Option Nat} {c : γ}
variable {s : σ × List Event}

/-- A part of a walk after others that went through. -/
theorem after (h : Echoes (log ++ new) run r d c s) (hnew : Unstopped new)
    (hrun : ∀ left c s, run left r c s → run' (new.length + left) r' c s) :
    Echoes log run' r' d c s := by
  cases h with
  | @through later c s hlater h =>
    rw [List.append_assoc]
    refine .through (List.forall_mem_append.mpr ⟨hnew, hlater⟩) fun left => ?_
    rw [List.length_append, Nat.add_assoc]
    exact hrun _ _ _ (h left)
  | @stopped later last d c c' s s' hlater h =>
    have hrun' : run' (new ++ later).length r' c' (0, s') := by
      rw [List.length_append]
      exact hrun _ _ _ h
    rw [List.append_assoc, ← List.append_assoc new]
    exact .stopped (List.forall_mem_append.mpr ⟨hnew, hlater⟩) hrun'

/-- A part of a walk with another account of its result. -/
theorem map (h : Echoes log run r d c s) (hrun : ∀ left c s, run left r c s → run' left r' c s) :
    Echoes log run' r' d c s := by
  cases h with
  | through hnew h => exact .through hnew fun left => hrun _ _ _ (h left)
  | stopped hnew h => exact .stopped hnew (hrun _ _ _ h)

/-- A part of a walk without a call. -/
theorem still {c : γ} {s : σ} (h : ∀ left, run left r c (left, s)) :
    Echoes log run r none c (s, log) := by
  have hthrough : Echoes log run r none c (s, log ++ []) := by
    refine .through (List.forall_mem_nil _) fun left => ?_
    rw [List.length_nil, Nat.zero_add]
    exact h left
  rwa [List.append_nil] at hthrough

/-- A part of a walk that goes on silently where another one stopped. -/
theorem silent {d : Nat} (h : Echoes log run r (some d) c s)
    (hrun : ∀ left c s, run left r c (0, s) → run' left r' c (0, s)) :
    Echoes log run' r' (some d) c s := by
  cases h with
  | stopped hnew h => exact .stopped hnew (hrun _ _ _ h)

end Echoes

section Parts
variable {v : Visitor γ σ} {log : List Event} {position : Position}

theorem Unstopped.snoc {new : List Event} {ev : Event} (h : Unstopped new)
    (hev : ev.signal ≠ .ok .stop) : Unstopped (new ++ [ev]) :=
  List.forall_mem_append.mpr ⟨h, List.forall_mem_singleton.mpr hev⟩

/-- A node that is left after everything below it went through. -/
theorem Echoes.leave {ρ : Type} {run : Nat → ρ → γ → Nat × σ → Prop} {r : ρ} {c : γ}
    {s : σ × List Event} (h : Echoes log run r none c s) (v : Visitor γ σ)
    (held n : Node) (fate : Fate) (position : Position) :
    Echoes log (fun left outcome c' s' => ∃ c s, run left r c s ∧
        leaveNode v.quieted held n fate position c s = ⟨outcome, none, c', s'⟩)
      (leaveNode v.logged held n fate position c s).outcome
      (leaveNode v.logged held n fate position c s).stopDepth
      (leaveNode v.logged held n fate position c s).context
      (leaveNode v.logged held n fate position c s).state := by
  cases h with
  | @through new c s hnew h =>
    generalize hreply : v.leave ((fate.node? n).getD n) position c s = reply
    generalize hev : Event.mk ⟨.leaving, (fate.node? n).getD n, position⟩ reply.signal = ev
    have hlogged : v.logged.leave ((fate.node? n).getD n) position c (s, log ++ new) =
        ⟨reply.signal, reply.context, reply.state, log ++ new ++ [ev]⟩ := by
      rw [← hev, ← hreply]
      rfl
    have hquieted : ∀ left, v.quieted.leave ((fate.node? n).getD n) position c (left + 1, s) =
        ⟨reply.signal, reply.context, left, reply.state⟩ := by
      intro left
      rw [← hreply]
      rfl
    -- As many calls as below the node, and the one that leaves it.
    have hlength : ∀ left, (new ++ [ev]).length + left = new.length + (left + 1) := by
      intro left
      rw [List.length_append, List.length_singleton]
      omega
    cases hsignal : reply.signal with
    | error e =>
      rw [leaveNode_error hlogged hsignal, List.append_assoc]
      refine .through (hnew.snoc (by simp [← hev, hsignal])) fun left => ?_
      rw [hlength]
      exact ⟨_, _, h (left + 1), leaveNode_error (hquieted left) hsignal⟩
    | ok signal =>
      rw [leaveNode_ok hlogged hsignal, List.append_assoc]
      by_cases hstop : signal = .stop
      · subst hstop
        exact .stopped hnew ⟨_, _, h 0, leaveNode_silent v position c s held n fate⟩
      · simp only [hstop, if_false]
        refine .through (hnew.snoc (by simpa [← hev, hsignal] using hstop)) fun left => ?_
        rw [hlength]
        refine ⟨_, _, h (left + 1), ?_⟩
        rw [leaveNode_ok (hquieted left) hsignal, if_neg hstop]

/-- A node below which everything went through or the walk stopped. -/
theorem Echoes.conclude {run : Nat → Except Error (List (Option Node)) × Bool → γ → Nat × σ → Prop}
    {p : Passage γ (σ × List Event)}
    (h : Echoes log run (p.entries, p.edited) p.stopDepth p.context p.state) (v : Visitor γ σ)
    {n m : Node} (changed : Bool) (position : Position) :
    Echoes log (fun left outcome c' s' => ∃ r c s, run left r c s ∧
        Passage.conclude v.quieted n m changed position ⟨r.1, r.2, none, c, s⟩ =
          ⟨outcome, none, c', s'⟩)
      (p.conclude v.logged n m changed position).outcome
      (p.conclude v.logged n m changed position).stopDepth
      (p.conclude v.logged n m changed position).context
      (p.conclude v.logged n m changed position).state := by
  obtain ⟨entries, edited, stopDepth, c, s⟩ := p
  cases entries with
  | error e => exact h.map fun left c s hs => ⟨_, _, _, hs, rfl⟩
  | ok entries =>
    simp only [Passage.conclude]
    cases hclose : closeNode m changed edited entries with
    | error e =>
      refine h.map fun left c s hs => ⟨_, _, _, hs, ?_⟩
      simp only [hclose]
    | ok fate =>
      cases stopDepth with
      | some d =>
        refine h.silent fun left c s hs => ⟨_, _, _, hs, ?_⟩
        simp only [hclose, leaveNode_silent]
      | none =>
        refine (h.leave v n m fate position).map ?_
        rintro left c' s' ⟨c, s, hs, hleave⟩
        refine ⟨_, _, _, hs, ?_⟩
        simpa only [hclose] using hleave

variable {w : Node → Position → γ → σ × List Event → Option (Answer γ (σ × List Event))}

/-- A walk for a single node with a log whose results the visitor that falls silent has as
well. -/
def EchoesWalk (v : Visitor γ σ)
    (w : Node → Position → γ → σ × List Event → Option (Answer γ (σ × List Event))) : Prop :=
  ∀ n position c s log a, w n position c (s, log) = some a →
    Echoes log (fun left outcome c' s' =>
      v.quieted.Gives n position c (left, s) ⟨outcome, none, c', s'⟩)
      a.outcome a.stopDepth a.context a.state

theorem echoes_walkChildren (hw : EchoesWalk v w) (parent : Node) (position : Position) :
    ∀ (children : List Child) (c : γ) (s : σ) (log : List Event)
      (p : Passage γ (σ × List Event)),
      walkChildren w parent position children c (s, log) = some p →
      Echoes log (fun left r c' s' =>
        v.quieted.Passes parent position children c (left, s) ⟨r.1, r.2, none, c', s'⟩)
        (p.entries, p.edited) p.stopDepth p.context p.state := by
  intro children
  induction children with
  | nil =>
    rintro c s log p ⟨⟩
    exact Echoes.still fun left => Passes.nil
  | cons child children ih =>
    intro c s log p hp
    cases walkChildren_proceeds hp with
    | error hfirst houtcome =>
      have hchild := hw _ _ _ _ _ _ hfirst
      rw [houtcome] at hchild
      exact hchild.map fun left c s hs => Passes.error hs rfl
    | stop hfirst houtcome hstop =>
      have hchild := hw _ _ _ _ _ _ hfirst
      rw [houtcome, hstop] at hchild
      -- The silent visitor goes on to the other children and leaves them as they are.
      refine hchild.silent fun left c s hs => ?_
      have hrest := passes_silent v position c s parent children fun other _ =>
        gives_silent v c s other.node
      simpa [Passage.after, Except.map] using Passes.cons hs rfl rfl hrest
    | @next first fate others hfirst houtcome hstop hothers =>
      have hchild := hw _ _ _ _ _ _ hfirst
      rw [houtcome] at hchild
      obtain ⟨_, _, c₁, t⟩ := first
      cases hstop
      cases hchild with
      | @through new _ s₁ hnew hgives =>
        have hrest := ih _ _ _ _ hothers
        refine hrest.after hnew fun left c s hs => ?_
        exact Passes.cons (hgives left) rfl rfl hs

theorem echoes_walk (v : Visitor γ σ) (depth : Nat) : EchoesWalk v (walk v.logged depth) := by
  induction depth with
  | zero =>
    intro n position c s log a ha
    cases ha
  | succ depth ih =>
    intro n position c s log a ha
    generalize hreply : v.enter n position c s = reply
    generalize hev : Event.mk ⟨.entering, n, position⟩ reply.signal = ev
    have hlogged : v.logged.enter n position c (s, log) =
        ⟨reply.signal, reply.context, reply.state, log ++ [ev]⟩ := by
      rw [← hev, ← hreply]
      rfl
    have hquieted : ∀ left, v.quieted.enter n position c (1 + left, s) =
        ⟨reply.signal, reply.context, left, reply.state⟩ := by
      intro left
      rw [← hreply, Nat.add_comm]
      rfl
    have hsingle : reply.signal ≠ .ok .stop → Unstopped [ev] := by
      intro h
      exact List.forall_mem_singleton.mpr (by rwa [← hev])
    cases hsignal : reply.signal with
    | error e =>
      rw [walk_error hlogged hsignal] at ha
      cases ha
      refine .through (hsingle (by simp [hsignal])) fun left => ⟨1, ?_⟩
      exact walk_error (hquieted left) hsignal
    | ok signal =>
      cases hopening : signal.opening n with
      | deleted =>
        rw [walk_deleted hlogged hsignal hopening] at ha
        cases ha
        refine .through (hsingle ?_) fun left => ⟨1, walk_deleted (hquieted left) hsignal hopening⟩
        rw [hsignal]
        rintro ⟨⟩
        cases hopening
      | stopped =>
        rw [walk_stopped hlogged hsignal hopening] at ha
        cases ha
        -- The call that stops the walk is one that the silent visitor does not answer.
        have hnone : Unstopped [] := List.forall_mem_nil _
        exact .stopped hnone (gives_silent v c s n position)
      | descend m changed children =>
        rw [walk_descend hlogged hsignal hopening, Option.map_eq_some_iff] at ha
        obtain ⟨p, hp, rfl⟩ := ha
        have hgoes : reply.signal ≠ .ok .stop := by
          rw [hsignal]
          rintro ⟨⟩
          cases hopening
        have hbelow := echoes_walkChildren ih m position children _ _ _ _ hp
        refine (hbelow.conclude v changed position).after (hsingle hgoes) ?_
        rintro left c s ⟨r, c', s', hpasses, hconclude⟩
        rw [← hconclude]
        exact Gives.descend (hquieted left) hsignal hopening hpasses

end Parts

/-! ## Stopping -/

/-- A walk that a visitor stops at one of its calls comes to the same result as the walk of
the visitor that wants nothing from that call on. -/
theorem stop_like_silence {v : Visitor γ σ} {root : Node} {c : γ} {s : σ} {a : Answer γ σ}
    {log : List Event} {k : Nat} {ev : Event} (h : v.EndsWith root c s a log)
    (hk : log[k]? = some ev) (hstop : ev.signal = .ok .stop) :
    ∃ b, v.quieted.Ends root c (k, s) b ∧ b.outcome = a.outcome := by
  obtain ⟨depth, hwalk⟩ := ends_iff.mp h
  have hechoes := echoes_walk v depth root .root c s [] _ hwalk
  obtain ⟨outcome, stopDepth, c', s'⟩ := a
  simp only at hechoes
  generalize hstate : (s', log) = state at hechoes
  cases hechoes with
  | through hnew hruns =>
    cases hstate
    exact absurd hstop (hnew ev (List.mem_of_getElem? hk))
  | @stopped new last d c c'' s s'' hnew hruns =>
    cases hstate
    rw [List.nil_append] at hk
    -- No call before the last one was answered with a stop, so this is the last one.
    have hlast : k = new.length := by
      have hlt := (List.getElem?_eq_some_iff.mp hk).1
      rw [List.length_append, List.length_singleton] at hlt
      by_contra hne
      rw [List.getElem?_append_left (by omega)] at hk
      exact hnew ev (List.mem_of_getElem? hk) hstop
    subst hlast
    exact ⟨_, ends_iff.mpr hruns, rfl⟩

/-- Calls the alias `x` by another name, and stops on leaving it. -/
def renameThenStop : Visitor Unit Unit where
  enter n _ c s := ⟨.ok (if n = .name ⟨"x"⟩ then .edit (.replace (.name ⟨"y"⟩)) else .next), c, s⟩
  leave n _ c s := ⟨.ok (if n = .name ⟨"y"⟩ then .stop else .next), c, s⟩

/-- A field with a name and an alias. -/
def aliased (label : String) : Node := .field ⟨some ⟨label⟩, ⟨"a"⟩, [], [], none⟩

theorem stop_like_silence_renaming :
    ∃ a log ev, renameThenStop.EndsWith (aliased "x") () () a log ∧ log[2]? = some ev ∧
      ev.signal = .ok .stop ∧ a.outcome = .ok (.changed (aliased "y")) ∧
      ∃ b, renameThenStop.quieted.Ends (aliased "x") () (2, ()) b ∧ b.outcome = a.outcome := by
  have hrun : (visit 20 renameThenStop.logged (aliased "x") () ((), [])).map
      (fun a => (a.outcome, a.state.2[2]?.map (·.signal))) =
        some (.ok (.changed (aliased "y")), some (.ok .stop)) := by
    decide +kernel
  obtain ⟨⟨outcome, stopDepth, c, s, log⟩, hends, hseen⟩ := Option.map_eq_some_iff.mp hrun
  obtain ⟨houtcome, hsignal⟩ := Prod.ext_iff.mp hseen
  obtain ⟨ev, hev, hstop⟩ := Option.map_eq_some_iff.mp hsignal
  have hlog : renameThenStop.EndsWith (aliased "x") () () ⟨outcome, stopDepth, c, s⟩ log :=
    ⟨20, hends⟩
  exact ⟨_, log, ev, hlog, hev, hstop, houtcome, stop_like_silence hlog hev hstop⟩

end Visitor
end QueryDoc
