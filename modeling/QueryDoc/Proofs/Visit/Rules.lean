import QueryDoc.Proofs.Visit.Ends
import QueryDoc.Proofs.Visit.Record

/-! The rules of a walk, signal by signal, as a relation between a node and what a walk of it comes
to. A walk by recursion follows them, and so does a walk with the open nodes on a stack. -/
namespace QueryDoc

variable {γ σ : Type}

/-! ## Signals -/

namespace Signal

/-- How a walk goes on after a signal on entering a node: below which node, whether that took the
place of the one entered, and with which children. -/
inductive Opens (n : Node) : Signal → Node → Bool → List Child → Prop where
  | next : Opens n .next n false n.children
  | keep : Opens n (.edit .keep) n false n.children
  | skip : Opens n .skip n false []
  | replace (r : Node) : Opens n (.edit (.replace r)) r true r.children
  | same : Opens n (.edit (.restore n)) n false n.children
  | restore {r : Node} (h : r ≠ n) : Opens n (.edit (.restore r)) r true r.children

/-- What becomes of a node with a signal on leaving it, if the walk goes on. `held` is the node as
its parent holds it. -/
inductive Closes (held : Node) (fate : Fate) : Signal → Fate → Prop where
  | next : Closes held fate .next fate
  | keep : Closes held fate (.edit .keep) fate
  | skip : Closes held fate .skip fate
  | replace (r : Node) : Closes held fate (.edit (.replace r)) (.changed r)
  | same : Closes held fate (.edit (.restore held)) .kept
  | restore {r : Node} (h : r ≠ held) : Closes held fate (.edit (.restore r)) (.changed r)
  | delete : Closes held fate (.edit .delete) .deleted

variable {n m held : Node} {signal : Signal} {changed : Bool} {children : List Child}
variable {fate fate' : Fate}

theorem opens_iff :
    signal.Opens n m changed children ↔ signal.opening n = .descend m changed children := by
  constructor
  · intro h
    cases h with
    | next | keep | skip | replace => rfl
    | same => exact opening_restore_self n
    | restore h => rw [opening_restore_of_ne n _ h, opening_replace]
  · intro h
    match signal with
    | .next =>
      cases h
      exact .next
    | .skip =>
      cases h
      exact .skip
    | .stop => cases h
    | .edit .keep =>
      cases h
      exact .keep
    | .edit (.replace r) =>
      cases h
      exact .replace _
    | .edit (.restore r) =>
      by_cases hr : r = n
      · rw [hr, opening_restore_self] at h
        rw [hr]
        cases h
        exact .same
      · rw [opening_restore_of_ne n r hr] at h
        cases h
        exact .restore hr
    | .edit .delete => cases h

theorem opening_eq_deleted : signal.opening n = .deleted ↔ signal = .edit .delete := by
  cases signal with
  | edit e => cases e <;> simp [opening]
  | _ => simp [opening]

theorem opening_eq_stopped : signal.opening n = .stopped ↔ signal = .stop := by
  cases signal with
  | edit e => cases e <;> simp [opening]
  | _ => simp [opening]

theorem closes_iff (hgo : signal ≠ .stop) :
    signal.Closes held fate fate' ↔ signal.closing held fate = fate' := by
  constructor
  · intro h
    cases h with
    | next | keep | skip | replace | delete => rfl
    | same => exact closing_restore_self held fate
    | restore h => exact closing_restore_of_ne _ held fate h
  · rintro rfl
    match signal with
    | .next => exact .next
    | .skip => exact .skip
    | .stop => exact absurd rfl hgo
    | .edit .keep => exact .keep
    | .edit (.replace r) => exact .replace r
    | .edit (.restore r) =>
      by_cases hr : r = held
      · rw [hr, closing_restore_self]
        exact .same
      · rw [closing_restore_of_ne r held fate hr]
        exact .restore hr
    | .edit .delete => exact .delete

end Signal

/-! ## Nodes and their children -/

/-- What a node has in the place of a child, and whether that is a change. -/
inductive Fate.Yields (child : Node) : Fate → Option Node → Bool → Prop where
  | kept : Yields child .kept (some child) false
  | changed (m : Node) : Yields child (.changed m) (some m) true
  | deleted : Yields child .deleted none true

theorem Fate.yields_iff {child : Node} {fate : Fate} {entry : Option Node} {edited : Bool} :
    fate.Yields child entry edited ↔ fate.node? child = entry ∧ fate.isEdit = edited := by
  constructor
  · intro h
    cases h <;> exact ⟨rfl, rfl⟩
  · rintro ⟨rfl, rfl⟩
    cases fate with
    | kept => exact .kept
    | changed m => exact .changed m
    | deleted => exact .deleted

/-- What a node is after its children were walked. It is rebuilt with what there is in their places
if one of them changed, and only then. -/
inductive Node.Rebuilds (n : Node) (entries : List (Option Node)) :
    Bool → Bool → Fate → Node → Prop where
  | kept : Rebuilds n entries false false .kept n
  | replaced : Rebuilds n entries true false (.changed n) n
  | rebuilt {m : Node} (changed : Bool) (h : n.refill entries = .ok m) :
      Rebuilds n entries changed true (.changed m) m

theorem Node.rebuilds_iff {n m : Node} {entries : List (Option Node)} {changed edited : Bool}
    {fate : Fate} :
    n.Rebuilds entries changed edited fate m ↔
      closeNode n changed edited entries = .ok fate ∧ (fate.node? n).getD n = m := by
  constructor
  · intro h
    cases h with
    | kept | replaced => exact ⟨rfl, rfl⟩
    | rebuilt changed h =>
      rw [closeNode_edited, h]
      exact ⟨rfl, rfl⟩
  · rintro ⟨h, rfl⟩
    cases edited with
    | false =>
      rw [closeNode_unedited] at h
      cases changed with
      | false =>
        cases h
        exact .kept
      | true =>
        cases h
        exact .replaced
    | true =>
      rw [closeNode_edited] at h
      cases hrefill : n.refill entries with
      | error e =>
        rw [hrefill] at h
        cases h
      | ok m =>
        rw [hrefill] at h
        cases h
        exact .rebuilt changed hrefill

theorem closeNode_eq_error {n : Node} {entries : List (Option Node)} {changed edited : Bool}
    {e : Error} :
    closeNode n changed edited entries = .error e ↔
      edited = true ∧ n.refill entries = .error e := by
  cases edited with
  | false => simp
  | true =>
    rw [closeNode_edited]
    cases n.refill entries <;> simp [Except.map]

namespace Visitor

/-- What a walk of a node comes to after its children were walked. An error or a stop below it goes
on to its ancestors, and after a stop the node is still rebuilt, but not left. `held` is the node as
its parent holds it. -/
inductive Leaves (v : Visitor γ σ) (held n : Node) (changed : Bool) (position : Position) :
    Passage γ σ → Answer γ σ → Prop where
  | failed {e : Error} {edited : Bool} {d : Option Nat} {c : γ} {s : σ} :
      Leaves v held n changed position ⟨.error e, edited, d, c, s⟩ ⟨.error e, d, c, s⟩
  | refused {entries : List (Option Node)} {e : Error} {d : Option Nat} {c : γ} {s : σ}
      (h : n.refill entries = .error e) :
      Leaves v held n changed position ⟨.ok entries, true, d, c, s⟩ ⟨.error e, d, c, s⟩
  | stopped {entries : List (Option Node)} {edited : Bool} {fate : Fate} {m : Node} {d : Nat}
      {c : γ} {s : σ} (h : n.Rebuilds entries changed edited fate m) :
      Leaves v held n changed position ⟨.ok entries, edited, some d, c, s⟩ ⟨.ok fate, some d, c, s⟩
  | error {entries : List (Option Node)} {edited : Bool} {fate : Fate} {m : Node} {c c' : γ}
      {s s' : σ} {e : Error} (h : n.Rebuilds entries changed edited fate m)
      (hleave : v.leave m position c s = ⟨.error e, c', s'⟩) :
      Leaves v held n changed position ⟨.ok entries, edited, none, c, s⟩ ⟨.error e, none, c', s'⟩
  | stop {entries : List (Option Node)} {edited : Bool} {fate : Fate} {m : Node} {c c' : γ}
      {s s' : σ} (h : n.Rebuilds entries changed edited fate m)
      (hleave : v.leave m position c s = ⟨.ok .stop, c', s'⟩) :
      Leaves v held n changed position ⟨.ok entries, edited, none, c, s⟩
        ⟨.ok fate, some position.ancestors.length, c', s'⟩
  | next {entries : List (Option Node)} {edited : Bool} {fate fate' : Fate} {m : Node} {c c' : γ}
      {s s' : σ} {signal : Signal} (h : n.Rebuilds entries changed edited fate m)
      (hleave : v.leave m position c s = ⟨.ok signal, c', s'⟩) (hgo : signal ≠ .stop)
      (hcloses : signal.Closes held fate fate') :
      Leaves v held n changed position ⟨.ok entries, edited, none, c, s⟩ ⟨.ok fate', none, c', s'⟩

theorem leaves_iff {v : Visitor γ σ} {held n : Node} {changed : Bool} {position : Position}
    {p : Passage γ σ} {a : Answer γ σ} :
    v.Leaves held n changed position p a ↔ p.conclude v held n changed position = a := by
  constructor
  · intro h
    cases h with
    | failed => rfl
    | refused h => exact Passage.conclude_refused rfl (closeNode_eq_error.mpr ⟨rfl, h⟩)
    | stopped h =>
      obtain ⟨hclose, -⟩ := Node.rebuilds_iff.mp h
      simp only [Passage.conclude, hclose]
    | error h hleave =>
      obtain ⟨hclose, rfl⟩ := Node.rebuilds_iff.mp h
      rw [Passage.conclude_leave rfl hclose rfl, leaveNode_error hleave rfl]
    | stop h hleave =>
      obtain ⟨hclose, rfl⟩ := Node.rebuilds_iff.mp h
      rw [Passage.conclude_leave rfl hclose rfl, leaveNode_ok hleave rfl, if_pos rfl,
        Signal.closing_stop]
    | next h hleave hgo hcloses =>
      obtain ⟨hclose, rfl⟩ := Node.rebuilds_iff.mp h
      rw [Passage.conclude_leave rfl hclose rfl, leaveNode_ok hleave rfl, if_neg hgo,
        (Signal.closes_iff hgo).mp hcloses]
  · rintro rfl
    obtain ⟨outcome, edited, stopDepth, c, s⟩ := p
    cases outcome with
    | error e => exact .failed
    | ok entries =>
      cases hclose : closeNode n changed edited entries with
      | error e =>
        rw [Passage.conclude_refused rfl hclose]
        obtain ⟨rfl, hrefill⟩ := closeNode_eq_error.mp hclose
        exact .refused hrefill
      | ok fate =>
        have hrebuilds := Node.rebuilds_iff.mpr ⟨hclose, rfl⟩
        cases stopDepth with
        | some d =>
          simp only [Passage.conclude, hclose]
          exact .stopped hrebuilds
        | none =>
          rw [Passage.conclude_leave rfl hclose rfl]
          rcases hleave : v.leave ((fate.node? n).getD n) position c s with ⟨outcome, c', s'⟩
          cases outcome with
          | error e =>
            rw [leaveNode_error hleave rfl]
            exact .error hrebuilds hleave
          | ok signal =>
            rw [leaveNode_ok hleave rfl]
            by_cases hstop : signal = .stop
            · subst hstop
              rw [if_pos rfl, Signal.closing_stop]
              exact .stop hrebuilds hleave
            · rw [if_neg hstop]
              exact .next hrebuilds hleave hstop ((Signal.closes_iff hstop).mpr rfl)

/-! ## Walks -/

mutual

/-- What a walk of a node and everything below it comes to. -/
inductive Walks (v : Visitor γ σ) : Node → Position → γ → σ → Answer γ σ → Prop where
  | error {n : Node} {position : Position} {c c' : γ} {s s' : σ} {e : Error}
      (henter : v.enter n position c s = ⟨.error e, c', s'⟩) :
      Walks v n position c s ⟨.error e, none, c', s'⟩
  | delete {n : Node} {position : Position} {c c' : γ} {s s' : σ}
      (henter : v.enter n position c s = ⟨.ok (.edit .delete), c', s'⟩) :
      Walks v n position c s ⟨.ok .deleted, none, c', s'⟩
  | stop {n : Node} {position : Position} {c c' : γ} {s s' : σ}
      (henter : v.enter n position c s = ⟨.ok .stop, c', s'⟩) :
      Walks v n position c s ⟨.ok .kept, some position.ancestors.length, c', s'⟩
  | descend {n m : Node} {position : Position} {c c' : γ} {s s' : σ} {signal : Signal}
      {changed : Bool} {children : List Child} {p : Passage γ σ} {a : Answer γ σ}
      (henter : v.enter n position c s = ⟨.ok signal, c', s'⟩)
      (hopens : signal.Opens n m changed children)
      (hchildren : WalksAll v m position children c' s' p)
      (hleaves : v.Leaves n m changed position p a) :
      Walks v n position c s a

/-- What the walks of children come to, from left to right. After an error or a stop the others are
not walked, and after a stop they stay as they are. -/
inductive WalksAll (v : Visitor γ σ) :
    Node → Position → List Child → γ → σ → Passage γ σ → Prop where
  | done {parent : Node} {position : Position} {c : γ} {s : σ} :
      WalksAll v parent position [] c s ⟨.ok [], false, none, c, s⟩
  | error {parent : Node} {position : Position} {child : Child} {others : List Child} {c c' : γ}
      {s s' : σ} {e : Error} {d : Option Nat}
      (hfirst : Walks v child.node (position.child parent child.key) c s ⟨.error e, d, c', s'⟩) :
      WalksAll v parent position (child :: others) c s ⟨.error e, true, d, c', s'⟩
  | stop {parent : Node} {position : Position} {child : Child} {others : List Child} {c c' : γ}
      {s s' : σ} {fate : Fate} {d : Nat} {entry : Option Node} {edited : Bool}
      (hfirst : Walks v child.node (position.child parent child.key) c s ⟨.ok fate, some d, c', s'⟩)
      (hyields : fate.Yields child.node entry edited) :
      WalksAll v parent position (child :: others) c s
        ⟨.ok (entry :: others.map (some ·.node)), edited, some d, c', s'⟩
  | next {parent : Node} {position : Position} {child : Child} {others : List Child} {c c' : γ}
      {s s' : σ} {fate : Fate} {entry : Option Node} {edited : Bool} {p : Passage γ σ}
      (hfirst : Walks v child.node (position.child parent child.key) c s ⟨.ok fate, none, c', s'⟩)
      (hyields : fate.Yields child.node entry edited)
      (hothers : WalksAll v parent position others c' s' p) :
      WalksAll v parent position (child :: others) c s
        { p with entries := p.entries.map (entry :: ·), edited := edited || p.edited }

end

variable {v : Visitor γ σ}

theorem walksAll_of_walkChildren {w : Node → Position → γ → σ → Option (Answer γ σ)}
    (hw : ∀ n position c s a, w n position c s = some a → v.Walks n position c s a)
    (parent : Node) (position : Position) :
    ∀ (children : List Child) (c : γ) (s : σ) (p : Passage γ σ),
      walkChildren w parent position children c s = some p →
      v.WalksAll parent position children c s p := by
  intro children
  induction children with
  | nil =>
    intro c s p h
    cases h
    exact .done
  | cons child others ih =>
    intro c s p h
    cases walkChildren_proceeds h with
    | @error first e hfirst houtcome =>
      obtain ⟨outcome, d, c', s'⟩ := first
      cases houtcome
      exact .error (hw _ _ _ _ _ hfirst)
    | @stop first fate d hfirst houtcome hstop =>
      obtain ⟨outcome, stopDepth, c', s'⟩ := first
      cases houtcome
      cases hstop
      exact .stop (hw _ _ _ _ _ hfirst) (Fate.yields_iff.mpr ⟨rfl, rfl⟩)
    | @next first fate p hfirst houtcome hstop hothers =>
      obtain ⟨outcome, stopDepth, c', s'⟩ := first
      cases houtcome
      cases hstop
      exact .next (hw _ _ _ _ _ hfirst) (Fate.yields_iff.mpr ⟨rfl, rfl⟩) (ih _ _ _ hothers)

/-- A walk by recursion follows the rules. -/
theorem walks_of_walk (v : Visitor γ σ) (depth : Nat) :
    ∀ n position c s a, walk v depth n position c s = some a → v.Walks n position c s a := by
  induction depth with
  | zero =>
    intro n position c s a h
    cases h
  | succ depth ih =>
    intro n position c s a h
    rcases henter : v.enter n position c s with ⟨outcome, c', s'⟩
    cases outcome with
    | error e =>
      rw [walk_error henter rfl] at h
      cases h
      exact .error henter
    | ok signal =>
      cases hopening : signal.opening n with
      | deleted =>
        rw [walk_deleted henter rfl hopening] at h
        cases h
        obtain rfl := Signal.opening_eq_deleted.mp hopening
        exact .delete henter
      | stopped =>
        rw [walk_stopped henter rfl hopening] at h
        cases h
        obtain rfl := Signal.opening_eq_stopped.mp hopening
        exact .stop henter
      | descend m changed children =>
        rw [walk_descend henter rfl hopening, Option.map_eq_some_iff] at h
        obtain ⟨p, hp, ha⟩ := h
        exact .descend henter (Signal.opens_iff.mpr hopening)
          (walksAll_of_walkChildren ih m position children c' s' p hp) (leaves_iff.mpr ha)

mutual

/-- What follows the rules is walked by recursion, down to some depth. -/
theorem Walks.gives : ∀ {n : Node} {position : Position} {c : γ} {s : σ} {a : Answer γ σ},
    v.Walks n position c s a → v.Gives n position c s a
  | _, _, _, _, _, .error henter => ⟨1, walk_error henter rfl⟩
  | _, _, _, _, _, .delete henter => .deleted henter rfl
  | _, _, _, _, _, .stop henter => .stopped henter rfl
  | _, _, _, _, _, .descend henter hopens hchildren hleaves => by
    rw [← leaves_iff.mp hleaves]
    exact .descend henter rfl (Signal.opens_iff.mp hopens) hchildren.passes

theorem WalksAll.passes : ∀ {parent : Node} {position : Position} {children : List Child} {c : γ}
    {s : σ} {p : Passage γ σ}, v.WalksAll parent position children c s p →
    v.Passes parent position children c s p
  | _, _, _, _, _, _, .done => .nil
  | _, _, _, _, _, _, .error hfirst => Passes.error hfirst.gives rfl
  | _, _, _, _, _, _, .stop hfirst hyields => by
    obtain ⟨rfl, rfl⟩ := Fate.yields_iff.mp hyields
    exact Passes.stop hfirst.gives rfl rfl
  | _, _, _, _, _, _, .next hfirst hyields hothers => by
    obtain ⟨rfl, rfl⟩ := Fate.yields_iff.mp hyields
    exact Passes.cons hfirst.gives rfl rfl hothers.passes

end

theorem gives_iff_walks {n : Node} {position : Position} {c : γ} {s : σ} {a : Answer γ σ} :
    v.Gives n position c s a ↔ v.Walks n position c s a := by
  constructor
  · rintro ⟨depth, h⟩
    exact walks_of_walk v depth n position c s a h
  · exact Walks.gives

end Visitor

/-! ## Whole walks -/

/-- A walk with the open nodes on a stack refines the walk by recursion, rule by rule. With every
visitor both end with the same answer, or neither of them ends. A recorded visitor has the same
calls in both, in the same order and with the same nodes, paths and ancestors; this also holds where
no walk ends, as a visitor that gives up after any number of calls has made the same ones in both
when it does. -/
theorem visit_refines_walk (v : Visitor γ σ) (root : Node) (context : γ) (state : σ) :
    (∀ a, (∃ steps, visit steps v root context state = some a) ↔
      v.Walks root .root context state a) ∧
    (∀ a, (∃ steps, visit steps v.recorded root context (state, []) = some a) ↔
      v.recorded.Walks root .root context (state, []) a) ∧
    ∀ (count : Nat) (e : Error), ∃ a,
      (∃ steps, visit steps (v.recorded.limited e) root context (count, state, []) = some a) ∧
      (v.recorded.limited e).Walks root .root context (count, state, []) a := by
  have hvisit : ∀ {τ : Type} (w : Visitor γ τ) (t : τ) (a : Answer γ τ),
      (∃ steps, visit steps w root context t = some a) ↔ w.Walks root .root context t a :=
    fun w t a => (visit_iff_walk w root context t a).trans Visitor.gives_iff_walks
  refine ⟨hvisit v state, hvisit v.recorded (state, []), ?_⟩
  intro count e
  have hcount : count < count + 1 := Nat.lt_succ_self count
  obtain ⟨a, hwalk, _⟩ := walk_limited (count + 1) root .root context (count, state, []) hcount
  have hwalks := Visitor.gives_iff_walks.mp ⟨count + 1, hwalk⟩
  exact ⟨a, (hvisit _ _ a).mpr hwalks, hwalks⟩

/-- Puts a name in the place of each name, and gives back each child of the root as it was entered
last. -/
def giveBack : Visitor Unit Node where
  enter n p c s :=
    ⟨.ok (if n.shape = .name then .edit (.replace (.name ⟨"U"⟩)) else .next), c,
      if p.ancestors.length = 1 then n else s⟩
  leave _ p c s := ⟨.ok (if p.ancestors.length = 1 then .edit (.restore s) else .next), c, s⟩

/-- The type `T!!` could not be rebuilt. Here it is not, although its name was edited: the type
inside is the one that it holds again. -/
example :
    let root : Node := .typeRef (.nonNull (.nonNull (.named ⟨⟨"T"⟩⟩)))
    (visit 20 giveBack root () root).map (·.outcome) = some (.ok .kept) :=
  rfl

end QueryDoc
