import Mathlib.Data.List.Forall2
import QueryDoc.Proofs.Visit.Lockstep
import QueryDoc.Proofs.Visit.Record

/-! What a walk keeps up. A walk finds a node at a position, may put another one there, and
leaves it with the changes that were made below. If what it may find at a position holds of
the root and of every node that a visitor puts there on the way down, and goes on to the
children of a node, then what it may leave there holds of all that it leaves: of the result
of the whole walk, wherever the visitor stopped. -/
namespace QueryDoc

variable {γ σ : Type}

/-- What a hook puts in the place of a node at a position, and where it deletes one, in the
calls after which its state is of interest. A state that follows one that is not of interest
is not of interest either. -/
structure Hook.Obeys (hook : Hook γ σ) (live : σ → Prop) (put : Position → Node → Prop)
    (gone : Position → Prop) : Prop where
  earlier : ∀ {n position c s}, live (hook n position c s).state → live s
  replaced : ∀ {n position c s e r}, live (hook n position c s).state →
    (hook n position c s).signal = .ok (.edit e) → e.Puts r → put position r
  deleted : ∀ {n position c s}, live (hook n position c s).state →
    (hook n position c s).signal = .ok (.edit .delete) → gone position

/-- What there is at a position in the end: a node that may be left there, or none where one
may be gone. -/
def Settled (left : Position → Node → Prop) (gone : Position → Prop) (position : Position) :
    Option Node → Prop
  | some n => left position n
  | none => gone position

/-- What there is at the positions of a node's children in the end, an entry for each. -/
def SettledBelow (left : Position → Node → Prop) (gone : Position → Prop) (position : Position)
    (n : Node) : List Child → List (Option Node) → Prop :=
  List.Forall₂ fun c entry => Settled left gone (position.child n c.key) entry

/-- A child that there still is after a walk of the children is left at a child's position. -/
theorem left_of_mem {left : Position → Node → Prop} {gone : Position → Prop}
    {position : Position} {n m : Node} {children : List Child} {entries : List (Option Node)}
    (h : SettledBelow left gone position n children entries)
    (hm : some m ∈ entries) : ∃ c ∈ children, left (position.child n c.key) m := by
  induction h with
  | nil => cases hm
  | @cons c entry children entries hc hchildren ih =>
    rcases List.mem_cons.mp hm with rfl | hm
    · exact ⟨c, List.mem_cons_self, hc⟩
    · obtain ⟨c', hc', hleft⟩ := ih hm
      exact ⟨c', List.mem_cons_of_mem _ hc', hleft⟩

/-- A visitor keeps up what may be found at a position and left there: its hooks do, and so
do the steps that a walk makes by itself, down to a child, back without a change, and back to
a node that is rebuilt. -/
structure Keeps (v : Visitor γ σ) (live : σ → Prop) (found left : Position → Node → Prop)
    (gone : Position → Prop) : Prop where
  enter : v.enter.Obeys live found gone
  leave : v.leave.Obeys live left gone
  child : ∀ {position n} {c : Child}, found position n → c ∈ n.children →
    found (position.child n c.key) c.node
  kept : ∀ {position n}, found position n → left position n
  refilled : ∀ {position n m entries}, found position n →
    SettledBelow left gone position n n.children entries → n.refill entries = .ok m → left position m

/-- A walk goes on below the node that it entered, or leaves out what is below it, or it goes
on below the node that took its place. -/
theorem Signal.opening_descend {signal : Signal} {n m : Node} {changed : Bool}
    {children : List Child} (h : signal.opening n = .descend m changed children) :
    (m = n ∧ changed = false ∧ (children = m.children ∨ children = [])) ∨
      ((∃ e, signal = .edit e ∧ e.Puts m) ∧ changed = true ∧ children = m.children) := by
  match signal with
  | .next | .edit .keep =>
    cases h
    exact .inl ⟨rfl, rfl, .inl rfl⟩
  | .skip =>
    cases h
    exact .inl ⟨rfl, rfl, .inr rfl⟩
  | .edit (.replace r) =>
    cases h
    exact .inr ⟨⟨_, rfl, .inl rfl⟩, rfl, rfl⟩
  | .edit (.restore r) =>
    by_cases hr : r = n
    · subst hr
      rw [opening_restore_self] at h
      cases h
      exact .inl ⟨rfl, rfl, .inl rfl⟩
    · rw [opening_restore_of_ne n r hr] at h
      cases h
      exact .inr ⟨⟨_, rfl, .inr rfl⟩, rfl, rfl⟩

namespace Keeps

variable {v : Visitor γ σ} {live : σ → Prop} {found left : Position → Node → Prop}
variable {gone : Position → Prop} {w : Node → Position → γ → σ → Option (Answer γ σ)}

/-- A walk for a single node that leaves what may be left. -/
def Upholds (live : σ → Prop) (found left : Position → Node → Prop) (gone : Position → Prop)
    (w : Node → Position → γ → σ → Option (Answer γ σ)) : Prop :=
  ∀ n position c s a, w n position c s = some a → live a.state →
    live s ∧ (found position n → ∀ fate, a.outcome = .ok fate →
      Settled left gone position (fate.node? n))

/-- The entries for children are settled, those after a stop included. -/
theorem walkChildren (h : Keeps v live found left gone) (hw : Upholds live found left gone w)
    (parent : Node) (position : Position) :
    ∀ (children : List Child) (c : γ) (s : σ) (p : Passage γ σ),
      QueryDoc.walkChildren w parent position children c s = some p → live p.state →
      live s ∧ ((∀ child ∈ children, found (position.child parent child.key) child.node) →
        ∀ entries, p.entries = .ok entries →
          SettledBelow left gone position parent children entries) := by
  intro children
  induction children with
  | nil =>
    rintro c s p ⟨⟩ hlive
    refine ⟨hlive, ?_⟩
    rintro - entries ⟨⟩
    exact .nil
  | cons child children ih =>
    intro c s p hp hlive
    cases walkChildren_proceeds hp with
    | error hfirst houtcome =>
      refine ⟨(hw _ _ _ _ _ hfirst hlive).1, fun _ entries hentries => ?_⟩
      cases hentries
    | @stop first fate d hfirst houtcome hstop =>
      obtain ⟨hs, hsettled⟩ := hw _ _ _ _ _ hfirst hlive
      refine ⟨hs, fun hfound entries hentries => ?_⟩
      cases hentries
      refine .cons (hsettled (hfound child List.mem_cons_self) fate houtcome) ?_
      -- The children after the stop are left just as they were found.
      refine List.forall₂_map_right_iff.mpr (List.forall₂_same.mpr fun other hother => ?_)
      exact h.kept (hfound other (List.mem_cons_of_mem _ hother))
    | @next first fate others hfirst houtcome hstop hothers =>
      obtain ⟨hbetween, hrest⟩ := ih first.context first.state others hothers hlive
      obtain ⟨hs, hsettled⟩ := hw _ _ _ _ _ hfirst hbetween
      refine ⟨hs, fun hfound entries hentries => ?_⟩
      have hfirst := hsettled (hfound child List.mem_cons_self) fate houtcome
      have hothers := hrest fun other hother => hfound other (List.mem_cons_of_mem _ hother)
      obtain ⟨restEntries, edited, stopDepth, context, state⟩ := others
      cases restEntries with
      | error e => cases hentries
      | ok rest =>
        cases hentries
        exact .cons hfirst (hothers rest rfl)

/-- What becomes of a node when it is left. -/
theorem leaveNode (h : Keeps v live found left gone) {held n : Node} {fate : Fate}
    {position : Position} {c : γ} {s : σ} {a : Answer γ σ}
    (ha : QueryDoc.leaveNode v held n fate position c s = a) (hlive : live a.state) :
    live s ∧ (Settled left gone position (fate.node? held) →
      ∀ last, a.outcome = .ok last → Settled left gone position (last.node? held)) := by
  generalize hreply : v.leave ((fate.node? n).getD n) position c s = reply
  have hearlier := @h.leave.earlier ((fate.node? n).getD n) position c s
  have hreplaced := @h.leave.replaced ((fate.node? n).getD n) position c s
  have hdeleted := @h.leave.deleted ((fate.node? n).getD n) position c s
  rw [hreply] at hearlier hreplaced hdeleted
  cases hsignal : reply.signal with
  | error e =>
    rw [leaveNode_error hreply hsignal] at ha
    subst ha
    exact ⟨hearlier hlive, fun _ _ => nofun⟩
  | ok signal =>
    rw [leaveNode_ok hreply hsignal] at ha
    subst ha
    refine ⟨hearlier hlive, ?_⟩
    rintro hheld last ⟨⟩
    match signal with
    | .next | .skip | .stop | .edit .keep => exact hheld
    | .edit (.replace r) => exact hreplaced hlive hsignal (.inl rfl)
    | .edit (.restore r) =>
      rw [Signal.node?_closing_restore]
      exact hreplaced hlive hsignal (.inr rfl)
    | .edit .delete => exact hdeleted hlive hsignal

/-- What becomes of a node when its children were walked, which is `m` where the walk went
below a node in the place of the one that it entered. -/
theorem conclude (h : Keeps v live found left gone) {n m : Node} {changed : Bool}
    {position : Position} {p : Passage γ σ} {a : Answer γ σ}
    (ha : p.conclude v n m changed position = a) (hlive : live a.state) :
    live p.state ∧ (found position m → (changed = false → m = n) →
      (p.edited = true → ∀ entries, p.entries = .ok entries →
        SettledBelow left gone position m m.children entries) →
      ∀ fate, a.outcome = .ok fate → Settled left gone position (fate.node? n)) := by
  obtain ⟨entries, edited, stopDepth, c, s⟩ := p
  unfold Passage.conclude at ha
  cases entries with
  | error e =>
    subst ha
    exact ⟨hlive, fun _ _ _ _ => nofun⟩
  | ok entries =>
    simp only at ha
    cases hclose : closeNode m changed edited entries with
    | error e =>
      simp only [hclose] at ha
      subst ha
      exact ⟨hlive, fun _ _ _ _ => nofun⟩
    | ok fate =>
      -- The node is rebuilt, or it is as it was found.
      have hclosed : found position m → (changed = false → m = n) →
          (edited = true → SettledBelow left gone position m m.children entries) →
          Settled left gone position (fate.node? n) := by
        intro hfound hsame hentries
        unfold closeNode at hclose
        cases edited with
        | true =>
          simp only [if_true] at hclose
          cases hrefill : m.refill entries with
          | error e =>
            rw [hrefill] at hclose
            cases hclose
          | ok rebuilt =>
            rw [hrefill] at hclose
            cases hclose
            exact h.refilled hfound (hentries rfl) hrefill
        | false =>
          cases changed with
          | true =>
            cases hclose
            exact h.kept hfound
          | false =>
            cases hclose
            rw [← hsame rfl]
            exact h.kept hfound
      simp only [hclose] at ha
      cases stopDepth with
      | some d =>
        subst ha
        refine ⟨hlive, fun hfound hsame hentries last hlast => ?_⟩
        cases hlast
        exact hclosed hfound hsame fun hedited => hentries hedited entries rfl
      | none =>
        obtain ⟨hs, hleave⟩ := h.leaveNode ha hlive
        exact ⟨hs, fun hfound hsame hentries => hleave
          (hclosed hfound hsame fun hedited => hentries hedited entries rfl)⟩

theorem walk (h : Keeps v live found left gone) (depth : Nat) :
    Upholds live found left gone (QueryDoc.walk v depth) := by
  induction depth with
  | zero =>
    intro n position c s a ha
    cases ha
  | succ depth ih =>
    intro n position c s a ha hlive
    generalize hreply : v.enter n position c s = reply
    have hearlier := @h.enter.earlier n position c s
    have hreplaced := @h.enter.replaced n position c s
    have hdeleted := @h.enter.deleted n position c s
    rw [hreply] at hearlier hreplaced hdeleted
    cases hsignal : reply.signal with
    | error e =>
      rw [walk_error hreply hsignal] at ha
      cases ha
      exact ⟨hearlier hlive, fun _ _ => nofun⟩
    | ok signal =>
      cases hopening : signal.opening n with
      | deleted =>
        rw [walk_deleted hreply hsignal hopening] at ha
        cases ha
        refine ⟨hearlier hlive, ?_⟩
        rintro - fate ⟨⟩
        match signal, hopening with
        | .edit .delete, _ => exact hdeleted hlive hsignal
      | stopped =>
        rw [walk_stopped hreply hsignal hopening] at ha
        cases ha
        refine ⟨hearlier hlive, ?_⟩
        rintro hfound fate ⟨⟩
        exact h.kept hfound
      | descend m changed children =>
        rw [walk_descend hreply hsignal hopening, Option.map_eq_some_iff] at ha
        obtain ⟨p, hp, ha⟩ := ha
        obtain ⟨hbelow, hconclude⟩ := h.conclude (n := n) ha hlive
        obtain ⟨hentered, hchildren⟩ := h.walkChildren ih m position children _ _ p hp hbelow
        refine ⟨hearlier hentered, fun hfound fate hfate => ?_⟩
        rcases Signal.opening_descend hopening with
          ⟨rfl, rfl, hbelow⟩ | ⟨⟨e, rfl, he⟩, rfl, rfl⟩
        · refine hconclude hfound (fun _ => rfl) ?_ fate hfate
          intro hedited entries hentries
          rcases hbelow with rfl | rfl
          · exact hchildren (fun child hchild => h.child hfound hchild) entries hentries
          · -- Without children there is nothing that was edited.
            cases hp
            cases hedited
        · have hput := hreplaced hentered hsignal he
          exact hconclude hput nofun
            (fun _ => hchildren fun child hchild => h.child hput hchild) fate hfate

/-- What a walk of a whole tree leaves. -/
theorem ends (h : Keeps v live found left gone) {root : Node} {c : γ} {s : σ}
    {a : Answer γ σ} {fate : Fate} {n : Node} (hfound : found .root root)
    (hends : v.Ends root c s a) (hlive : live a.state) (houtcome : a.outcome = .ok fate)
    (hn : fate.node? root = some n) : left .root n := by
  obtain ⟨depth, hwalk⟩ := Visitor.ends_iff.mp hends
  have hsettled := (h.walk depth root .root c s a hwalk hlive).2 hfound fate houtcome
  rw [hn] at hsettled
  exact hsettled

end Keeps

/-! ## Edits on record -/

/-- A call of a hook and what it answered. -/
structure Event where
  call : Call
  signal : Except Error Signal

namespace Event

/-- The hook put a node in the place of the one that it was called with. -/
def Puts (ev : Event) (r : Node) : Prop := ∃ e, ev.signal = .ok (.edit e) ∧ e.Puts r

def Deletes (ev : Event) : Prop := ev.signal = .ok (.edit .delete)

end Event

/-- Notes each call and its answer after the earlier ones. -/
def Hook.logged (phase : Phase) (hook : Hook γ σ) : Hook γ (σ × List Event) :=
  fun n position context s =>
    let reply := hook n position context s.1
    ⟨reply.signal, reply.context, reply.state, s.2 ++ [⟨⟨phase, n, position⟩, reply.signal⟩]⟩

/-- What a hook puts and where it deletes can be read from the log. -/
theorem Hook.obeys_logged {hook : Hook γ σ} {phase : Phase} {log : List Event}
    {put : Position → Node → Prop} {gone : Position → Prop}
    (hput : ∀ ev ∈ log, ∀ r, ev.Puts r → put ev.call.position r)
    (hgone : ∀ ev ∈ log, ev.Deletes → gone ev.call.position) :
    (hook.logged phase).Obeys (fun s => ∀ ev ∈ s.2, ev ∈ log) put gone where
  earlier hlive ev hev := hlive ev (List.mem_append_left _ hev)
  replaced hlive hsignal he :=
    hput _ (hlive _ (List.mem_append_right _ List.mem_cons_self)) _ ⟨_, hsignal, he⟩
  deleted hlive hsignal := hgone _ (hlive _ (List.mem_append_right _ List.mem_cons_self)) hsignal

namespace Visitor

variable {v : Visitor γ σ} {root : Node} {c : γ} {s : σ} {a : Answer γ σ}

/-- The visitor with a log of its calls and their answers. -/
def logged (v : Visitor γ σ) : Visitor γ (σ × List Event) :=
  ⟨v.enter.logged .entering, v.leave.logged .leaving⟩

theorem lockstep_logged (v : Visitor γ σ) : Lockstep v v.logged fun _ s t => t.1 = s where
  ended _ _ _ h := h
  enter := by
    rintro n position c _ t rfl
    exact ⟨rfl, rfl, rfl⟩
  leave := by
    rintro n position c _ t rfl
    exact ⟨rfl, rfl, rfl⟩

/-- What a visitor's walk of a tree ends with, and the log of the walk. -/
def EndsWith (v : Visitor γ σ) (root : Node) (c : γ) (s : σ) (a : Answer γ σ)
    (log : List Event) : Prop :=
  v.logged.Ends root c (s, []) ⟨a.outcome, a.stopDepth, a.context, a.state, log⟩

/-- A log changes nothing about a walk. -/
theorem ends_iff_endsWith : v.Ends root c s a ↔ ∃ log, v.EndsWith root c s a log := by
  have halike := v.lockstep_logged.endAlike root c (s := s) (t := (s, [])) rfl
  constructor
  · intro ha
    obtain ⟨⟨outcome, stopDepth, context, state, log⟩, hb, hab⟩ := halike.1 a ha
    obtain ⟨rfl, rfl, rfl, rfl⟩ := hab
    exact ⟨log, hb⟩
  · rintro ⟨log, hlog⟩
    obtain ⟨b, hb, hab⟩ := halike.2 _ hlog
    obtain ⟨outcome, stopDepth, context, state⟩ := b
    obtain ⟨rfl, rfl, rfl, rfl⟩ := hab
    exact hb

/-- A log with a call that is not like the others had it from the start, or the visitor makes
such a call. -/
theorem keeps_logged {Q : Event → Prop}
    (henter : ∀ n position c s, Q ⟨⟨.entering, n, position⟩, (v.enter n position c s).signal⟩)
    (hleave : ∀ n position c s, Q ⟨⟨.leaving, n, position⟩, (v.leave n position c s).signal⟩) :
    Keeps v.logged (fun s => ¬ ∀ ev ∈ s.2, Q ev) (fun _ _ => True) (fun _ _ => True)
      fun _ => True where
  enter := by
    refine ⟨fun hlive hearlier => hlive ?_, fun _ _ _ => trivial, fun _ _ => trivial⟩
    exact List.forall_mem_append.mpr ⟨hearlier, List.forall_mem_singleton.mpr (henter _ _ _ _)⟩
  leave := by
    refine ⟨fun hlive hearlier => hlive ?_, fun _ _ _ => trivial, fun _ _ => trivial⟩
    exact List.forall_mem_append.mpr ⟨hearlier, List.forall_mem_singleton.mpr (hleave _ _ _ _)⟩
  child _ _ := trivial
  kept _ := trivial
  refilled _ _ _ := trivial

/-- What is so of every call of a visitor is so of the calls in the log of a walk. -/
theorem EndsWith.forall_log {Q : Event → Prop} {log : List Event}
    (h : v.EndsWith root c s a log)
    (henter : ∀ n position c s, Q ⟨⟨.entering, n, position⟩, (v.enter n position c s).signal⟩)
    (hleave : ∀ n position c s, Q ⟨⟨.leaving, n, position⟩, (v.leave n position c s).signal⟩) :
    ∀ ev ∈ log, Q ev := by
  by_contra hother
  obtain ⟨depth, hwalk⟩ := ends_iff.mp h
  have hstart := ((keeps_logged henter hleave).walk depth _ _ _ _ _ hwalk hother).1
  exact hstart fun _ hev => absurd hev List.not_mem_nil

end Visitor
end QueryDoc
