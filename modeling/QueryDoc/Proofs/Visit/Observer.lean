import QueryDoc.Proofs.Tree.Smaller
import QueryDoc.Proofs.Visit.Ends
import QueryDoc.Proofs.Visit.Record
import QueryDoc.Visit.Compose

/-! Visitors that change nothing. In a walk with such an observer another visitor has the
calls that it has in a walk alone, and the walk has the same result, although the other
visitor's skips and stops only pause it there while the walk goes on. -/
namespace QueryDoc

/-! ## Visitors that share a context -/

section Context
variable {Γ γ σ : Type}

/-- What a hook does depends on no more of the context than a look at it shows. -/
def Hook.Sees (hook : Hook Γ σ) (look : Γ → γ) : Prop :=
  ∀ n position c d s, look c = look d →
    (hook n position c s).signal = (hook n position d s).signal ∧
    (hook n position c s).state = (hook n position d s).state ∧
    look (hook n position c s).context = look (hook n position d s).context

/-- The signals that change no node. -/
def Signal.IsQuiet (signal : Signal) : Prop :=
  signal = .next ∨ signal = .skip ∨ signal = .stop

/-- A hook changes no node, has no errors, and leaves what a look at the context shows. -/
def Hook.Observes (hook : Hook Γ σ) (look : Γ → γ) : Prop :=
  ∀ n position c s,
    (∃ signal, (hook n position c s).signal = .ok signal ∧ signal.IsQuiet) ∧
    look (hook n position c s).context = look c

/-- What a visitor does depends on no more of the context than a look at it shows. -/
structure Visitor.Sees (v : Visitor Γ σ) (look : Γ → γ) : Prop where
  enter : v.enter.Sees look
  leave : v.leave.Sees look

/-- A visitor that only goes on, skips and stops, and leaves what a look at the context
shows. -/
structure Visitor.Observes (v : Visitor Γ σ) (look : Γ → γ) : Prop where
  enter : v.enter.Observes look
  leave : v.leave.Observes look

theorem Hook.Sees.recorded {hook : Hook Γ σ} {look : Γ → γ} (h : hook.Sees look)
    (phase : Phase) : (hook.recorded phase).Sees look := by
  intro n position c d s hlook
  obtain ⟨hsignal, hstate, hcontext⟩ := h n position c d s.1 hlook
  exact ⟨hsignal, by simp only [Hook.recorded, hstate], hcontext⟩

theorem Hook.Sees.limited {hook : Hook Γ σ} {look : Γ → γ} (h : hook.Sees look)
    (e : Error) : (hook.limited e).Sees look := by
  intro n position c d s hlook
  obtain ⟨left, s⟩ := s
  cases left with
  | zero => exact ⟨rfl, rfl, hlook⟩
  | succ left =>
    obtain ⟨hsignal, hstate, hcontext⟩ := h n position c d s hlook
    exact ⟨hsignal, by simp only [Hook.limited, hstate], hcontext⟩

theorem Visitor.Sees.recorded {v : Visitor Γ σ} {look : Γ → γ} (h : v.Sees look) :
    v.recorded.Sees look :=
  ⟨h.enter.recorded .entering, h.leave.recorded .leaving⟩

theorem Visitor.Sees.limited {v : Visitor Γ σ} {look : Γ → γ} (h : v.Sees look) (e : Error) :
    (v.limited e).Sees look :=
  ⟨h.enter.limited e, h.leave.limited e⟩

end Context

/-! ## Guests -/

/-- What a pair holds of one of its visitors. -/
structure Guest (σ : Type) where
  depth : Int
  seat : Seat σ

namespace Guest

variable {σ : Type}

def turn (g : Guest σ) : Turn := g.seat.turn

def state (g : Guest σ) : σ := g.seat.state

/-- The guest when a node at a position is entered: at the root everything begins anew. -/
def opened (position : Position) (g : Guest σ) : Guest σ :=
  if position.ancestors.isEmpty then ⟨0, .visiting, g.state⟩ else g

theorem state_opened (position : Position) (g : Guest σ) : (g.opened position).state = g.state := by
  unfold opened
  split <;> rfl

def IsAt (g : Guest σ) (turn : Turn) (depth : Int) : Prop :=
  g.turn = turn ∧ g.depth = depth

/-- What the pair shows of its guest's signal for a node that it enters, and where the
guest is then. The other visitor only has a say where the guest is paused. -/
def EnterShown (g : Guest σ) (depth : Int) (wanted shown : Signal) : Prop :=
  match wanted with
  | .next => shown = .next ∧ g.IsAt .visiting (depth + 1)
  | .skip => (shown = .next ∨ shown = .skip) ∧ g.IsAt (.skipping (depth + 1)) (depth + 1)
  | .stop => shown = .stop ∨ (shown = .next ∨ shown = .skip) ∧ g.IsAt .stopped (depth + 1)
  | .edit .delete => shown = .edit .delete ∧ g.IsAt .visiting depth
  | .edit e => shown = .edit e ∧ g.IsAt .visiting (depth + 1)

/-- The same for a node that it leaves. -/
def LeaveShown (g : Guest σ) (depth : Int) (wanted shown : Signal) : Prop :=
  match wanted with
  | .next | .skip => (shown = .next ∨ shown = .skip) ∧ g.IsAt .visiting depth
  | .stop => shown = .stop ∨ (shown = .next ∨ shown = .skip) ∧ g.IsAt .stopped depth
  | .edit e => shown = .edit e ∧ g.IsAt .visiting depth

/-- What the pair shows where its guest is paused. -/
def AsideShown (g : Guest σ) (turn : Turn) (depth : Int) (shown : Signal) : Prop :=
  shown = .stop ∧ turn = .stopped ∨ (shown = .next ∨ shown = .skip) ∧ g.IsAt turn depth

end Guest

section Hosts
variable {Γ γ σ τ : Type}

/-- A host's reply where its guest was called and gave a reply of its own. -/
structure Shows (look : Γ → γ) (guest : τ → Guest σ) (P : Guest σ → Signal → Signal → Prop)
    (shown : Reply Γ τ) (reply : Reply Γ σ) : Prop where
  context : look shown.context = look reply.context
  state : (guest shown.state).state = reply.state
  error : ∀ e, reply.signal = .error e → shown.signal = .error e
  signal : ∀ wanted, reply.signal = .ok wanted →
    ∃ signal, shown.signal = .ok signal ∧ P (guest shown.state) wanted signal

theorem Shows.of_error {look : Γ → γ} {guest : τ → Guest σ}
    {P : Guest σ → Signal → Signal → Prop} {shown : Reply Γ τ} {reply : Reply Γ σ} {e : Error}
    (hreply : reply.signal = .error e) (hcontext : look shown.context = look reply.context)
    (hstate : (guest shown.state).state = reply.state) (hshown : shown.signal = .error e) :
    Shows look guest P shown reply where
  context := hcontext
  state := hstate
  error := by
    intro e' he
    cases hreply.symm.trans he
    exact hshown
  signal := by
    intro wanted hwanted
    cases hreply.symm.trans hwanted

theorem Shows.of_ok {look : Γ → γ} {guest : τ → Guest σ}
    {P : Guest σ → Signal → Signal → Prop} {shown : Reply Γ τ} {reply : Reply Γ σ}
    {wanted signal : Signal} (hreply : reply.signal = .ok wanted)
    (hcontext : look shown.context = look reply.context)
    (hstate : (guest shown.state).state = reply.state) (hshown : shown.signal = .ok signal)
    (h : P (guest shown.state) wanted signal) : Shows look guest P shown reply where
  context := hcontext
  state := hstate
  error := by
    intro e he
    cases hreply.symm.trans he
  signal := by
    intro wanted' hwanted
    cases hreply.symm.trans hwanted
    exact ⟨signal, hshown, h⟩

/-- A host's reply where its guest was not called. -/
structure Passes (look : Γ → γ) (guest : τ → Guest σ) (P : Guest σ → Signal → Prop)
    (shown : Reply Γ τ) (c : Γ) (state : σ) : Prop where
  context : look shown.context = look c
  state : (guest shown.state).state = state
  signal : ∃ signal, shown.signal = .ok signal ∧ P (guest shown.state) signal

/-- A visitor that runs another one, whose place in its state is given, and that shows
nothing but the signals of this guest and pauses for it. -/
structure Hosts (host : Visitor Γ τ) (v : Visitor Γ σ) (look : Γ → γ) (guest : τ → Guest σ) :
    Prop where
  enter_called : ∀ n position c d s, look c = look d →
    ((guest s).opened position).turn = .visiting →
    Shows look guest (·.EnterShown ((guest s).opened position).depth)
      (host.enter n position c s) (v.enter n position d (guest s).state)
  enter_aside : ∀ n position c s, ((guest s).opened position).turn ≠ .visiting →
    Passes look guest
      (·.AsideShown ((guest s).opened position).turn (((guest s).opened position).depth + 1))
      (host.enter n position c s) c (guest s).state
  leave_called : ∀ n position c d s, look c = look d →
    (guest s).turn.resumed (guest s).depth = .visiting →
    Shows look guest (·.LeaveShown ((guest s).depth - 1))
      (host.leave n position c s) (v.leave n position d (guest s).state)
  leave_aside : ∀ n position c s, (guest s).turn.resumed (guest s).depth ≠ .visiting →
    Passes look guest (·.AsideShown (guest s).turn ((guest s).depth - 1))
      (host.leave n position c s) c (guest s).state

end Hosts

/-! ## What a pair shows of a guest -/

namespace Guest

variable {σ : Type}

/-- The guest of a pair after the pair entered a node and gave a signal. -/
def entered (depth : Int) (seat : Seat σ) (signal : Signal) : Guest σ :=
  if signal = .edit .delete ∨ signal = .stop then ⟨depth - 1, seat.resumed depth⟩
  else ⟨depth, seat⟩

theorem state_entered (depth : Int) (seat : Seat σ) (signal : Signal) :
    (entered depth seat signal).state = seat.state := by
  unfold entered
  split <;> rfl

/-- The signal of the guest, which the pair took up first, is shown. -/
theorem enterShown_signal (n : Node) (depth : Int) (wanted : Signal) (other : Turn)
    (seat : Seat σ) {pass : Pass}
    (h : (Pass.start n).apply .visiting (some (depth + 1)) wanted = (pass, seat.turn)) :
    (entered (depth + 1) seat (pass.signal seat.turn other)).EnterShown depth wanted
      (pass.signal seat.turn other) := by
  obtain ⟨turn, state⟩ := seat
  cases wanted with
  | next =>
    cases h
    simp [entered, EnterShown, Pass.signal, Pass.start, Pass.isDeleted, IsAt, Guest.turn]
  | skip =>
    cases h
    by_cases hother : other = .visiting <;>
      simp [entered, EnterShown, Pass.signal, Pass.start, Pass.isDeleted, IsAt, Guest.turn,
        hother]
  | stop =>
    cases h
    by_cases hother : other = .visiting <;> by_cases hstopped : other = .stopped <;>
      simp [entered, EnterShown, Pass.signal, Pass.start, Pass.isDeleted, IsAt, Guest.turn,
        hother, hstopped]
  | edit e =>
    cases h
    cases e <;>
      simp [entered, EnterShown, Pass.take, Pass.signal, Pass.start, Pass.isDeleted, IsAt,
        Guest.turn, Seat.resumed]

theorem leaveShown_signal (n : Node) (depth : Int) (wanted : Signal) (other : Turn)
    (seat : Seat σ) {pass : Pass}
    (h : (Pass.start n).apply .visiting none wanted = (pass, seat.turn)) :
    Guest.LeaveShown ⟨depth - 1, seat.resumed depth⟩ (depth - 1) wanted
      (pass.signal (seat.resumed depth).turn other) := by
  obtain ⟨turn, state⟩ := seat
  cases wanted with
  | next =>
    cases h
    simp [LeaveShown, Pass.signal, Pass.start, Pass.isDeleted, IsAt, Guest.turn, Seat.resumed]
  | skip =>
    cases h
    simp [LeaveShown, Pass.signal, Pass.start, Pass.isDeleted, IsAt, Guest.turn, Seat.resumed]
  | stop =>
    cases h
    by_cases hother : other = .visiting <;> by_cases hstopped : other = .stopped <;>
      simp [LeaveShown, Pass.signal, Pass.start, Pass.isDeleted, IsAt, Guest.turn, Seat.resumed,
        hother, hstopped]
  | edit e =>
    cases h
    cases e <;>
      simp [LeaveShown, Pass.take, Pass.signal, Pass.start, Pass.isDeleted, IsAt, Guest.turn,
        Seat.resumed]

/-- Where the guest is paused, a node that nobody changes is shown as it is. -/
theorem asideShown_entered (n : Node) (depth : Int) (seat : Seat σ) (other : Turn)
    (h : seat.turn ≠ .visiting) :
    (entered depth seat ((Pass.start n).signal seat.turn other)).AsideShown seat.turn depth
      ((Pass.start n).signal seat.turn other) := by
  by_cases hstopped : seat.turn = .stopped <;> by_cases hother : other = .stopped <;>
    by_cases hvisits : other = .visiting <;>
    simp [entered, AsideShown, Pass.signal, Pass.start, Pass.isDeleted, IsAt, turn, h, hstopped,
      hother, hvisits]

theorem asideShown_left (n : Node) (depth : Int) (seat : Seat σ) (other : Turn)
    (h : seat.turn.resumed depth ≠ .visiting) :
    Guest.AsideShown ⟨depth - 1, seat.resumed depth⟩ seat.turn (depth - 1)
      ((Pass.start n).signal (seat.resumed depth).turn other) := by
  have hsame := Turn.resumed_of_paused h
  rw [hsame] at h
  by_cases hstopped : seat.turn = .stopped <;> by_cases hother : other = .stopped <;>
    by_cases hvisits : other = .visiting <;>
    simp [AsideShown, Pass.signal, Pass.start, Pass.isDeleted, IsAt, turn, Seat.resumed, hsame, h,
      hstopped, hother, hvisits]

end Guest

/-! ## Calls of a visitor beside an observer -/

section Calls
variable {Γ γ σ τ α : Type} {look : Γ → γ} {skipDepth : Option Int} {position : Position}
variable {pass : Pass} {reply : Reply Γ σ} {c : Γ}

/-- Among other visitors, one was called and gave a reply, and what became of the node is
up to that reply. -/
structure Called.Carries (called : Called Γ α) (look : Γ → γ) (seat : α → Seat σ)
    (pass : Pass) (skipDepth : Option Int) (reply : Reply Γ σ) : Prop where
  context : look called.context = look reply.context
  state : (seat called.seats).state = reply.state
  taken : called.pass = reply.signal.map (pass.apply .visiting skipDepth · |>.1)
  turn : ∀ wanted, reply.signal = .ok wanted →
    (seat called.seats).turn = (pass.apply .visiting skipDepth wanted).2

/-- Visitors were called and left a node as it is. -/
structure Called.Leaves (called : Called Γ α) (look : Γ → γ) (pass : Pass) (c : Γ) : Prop where
  context : look called.context = look c
  pass : called.pass = .ok pass

theorem Seat.call_carries {hook : Hook Γ σ} (ha : hook.Sees look) (seat : Seat σ)
    (hturn : seat.turn = .visiting) (skipDepth : Option Int) (position : Position) (pass : Pass)
    {c d : Γ} (hlook : look c = look d) :
    (seat.call hook skipDepth position pass c).Carries look id pass skipDepth
      (hook pass.node position d seat.state) := by
  obtain ⟨hsignal, hstate, hcontext⟩ := ha pass.node position c d seat.state hlook
  cases hreply : (hook pass.node position c seat.state).signal with
  | error e =>
    rw [Seat.call_error skipDepth hturn hreply]
    rw [hsignal] at hreply
    refine ⟨hcontext, hstate, ?_, ?_⟩
    · simp only [hreply, Except.map]
    · intro wanted hwanted
      cases hreply.symm.trans hwanted
  | ok wanted =>
    rw [Seat.call_ok skipDepth hturn hreply]
    rw [hsignal] at hreply
    refine ⟨hcontext, hstate, ?_, ?_⟩
    · simp only [hreply, Except.map]
    · intro wanted' hwanted
      cases hreply.symm.trans hwanted
      rfl

theorem Seat.call_leaves {hook : Hook Γ τ} (hb : hook.Observes look) (skipDepth : Option Int)
    (position : Position) (seat : Seat τ) (pass : Pass) (c : Γ) :
    (seat.call hook skipDepth position pass c).Leaves look pass c := by
  by_cases hturn : seat.turn = .visiting
  · obtain ⟨⟨signal, hsignal, hquiet⟩, hlook⟩ := hb pass.node position c seat.state
    rw [Seat.call_ok skipDepth hturn hsignal]
    refine ⟨hlook, ?_⟩
    rcases hquiet with rfl | rfl | rfl
    · rfl
    · cases skipDepth <;> rfl
    · rfl
  · rw [Seat.call_aside skipDepth hturn]
    exact ⟨rfl, rfl⟩

section First
variable {called : Called Γ (Seat σ)} {others : Seat τ}
variable {call : Seat τ → Pass → Γ → Called Γ (Seat τ)}

/-- The visitors that are called afterwards leave the node as it is. -/
theorem Called.Carries.first (h : called.Carries look id pass skipDepth reply)
    (hcall : ∀ pass c, (call others pass c).Leaves look pass c) :
    (called.andThen others call).Carries look Prod.fst pass skipDepth reply := by
  have htaken := h.taken
  cases hsignal : reply.signal with
  | error e =>
    rw [hsignal] at htaken
    rw [Called.andThen_error htaken]
    exact ⟨h.context, h.state, by rw [hsignal]; rfl, h.turn⟩
  | ok wanted =>
    rw [hsignal] at htaken
    cases hdeleted : (pass.apply .visiting skipDepth wanted).1.isDeleted with
    | true =>
      rw [Called.andThen_deleted htaken hdeleted]
      exact ⟨h.context, h.state, by rw [hsignal]; rfl, h.turn⟩
    | false =>
      rw [Called.andThen_ok htaken hdeleted]
      have hothers := hcall (pass.apply .visiting skipDepth wanted).1 called.context
      exact ⟨hothers.context.trans h.context, h.state,
        by rw [hsignal]; exact hothers.pass, h.turn⟩

end First

/-- The visitors that were called before have left the node as it is. -/
theorem Called.Leaves.second {called : Called Γ (Seat τ)} {others : Seat σ}
    {call : Seat σ → Pass → Γ → Called Γ (Seat σ)} {n : Node} {c d : Γ}
    (h : called.Leaves look (.start n) c) (hlook : look c = look d)
    (hcall : ∀ c, look c = look d →
      (call others (.start n) c).Carries look id (.start n) skipDepth reply) :
    (called.andThen others call).Carries look Prod.snd (.start n) skipDepth reply := by
  have hothers := hcall called.context (h.context.trans hlook)
  rw [Called.andThen_ok h.pass rfl]
  exact ⟨hothers.context, hothers.state, hothers.taken, hothers.turn⟩

/-- Where all visitors leave a node as it is, so do they together. -/
theorem Called.Leaves.andThen {α β : Type} {called : Called Γ α} {others : β}
    {call : β → Pass → Γ → Called Γ β} {n : Node} (h : called.Leaves look (.start n) c)
    (hcall : ∀ c, (call others (.start n) c).Leaves look (.start n) c) :
    (called.andThen others call).Leaves look (.start n) c := by
  have hothers := hcall called.context
  rw [Called.andThen_ok h.pass rfl]
  exact ⟨hothers.context.trans h.context, hothers.pass⟩

end Calls

/-! ## Pairs with an observer -/

/-- One of the two places of a pair. -/
inductive Place (σ τ : Type) : Type → Type 1 where
  | first : Place σ τ σ
  | second : Place σ τ τ

namespace Place

variable {σ τ υ : Type}

def seat : Place σ τ υ → Seat σ × Seat τ → Seat υ
  | .first, seats => seats.1
  | .second, seats => seats.2

/-- The turn of the visitor at the other place. -/
def otherTurn : Place σ τ υ → Seat σ × Seat τ → Turn
  | .first, seats => seats.2.turn
  | .second, seats => seats.1.turn

/-- The visitor at a place of a pair, as a guest of the pair. -/
def guest (place : Place σ τ υ) (p : Pair σ τ) : Guest υ :=
  ⟨p.depth, place.seat (p.first, p.second)⟩

theorem signal_eq (place : Place σ τ υ) (pass : Pass) (seats : Seat σ × Seat τ) :
    pass.signal seats.1.turn seats.2.turn =
      pass.signal (place.seat seats).turn (place.otherTurn seats) := by
  cases place with
  | first => rfl
  | second => simp only [Pass.signal, seat, otherTurn, and_comm]

theorem signal_resumed (place : Place σ τ υ) (pass : Pass) (seats : Seat σ × Seat τ)
    (depth : Int) :
    pass.signal (seats.1.turn.resumed depth) (seats.2.turn.resumed depth) =
      pass.signal ((place.seat seats).resumed depth).turn
        ((place.otherTurn seats).resumed depth) := by
  cases place with
  | first => rfl
  | second => exact (signal_eq .second pass (seats.1.resumed depth, seats.2.resumed depth))

theorem guest_opened (place : Place σ τ υ) (position : Position) (p : Pair σ τ) :
    place.guest (p.opened position) = (place.guest p).opened position := by
  unfold Pair.opened Guest.opened
  split <;> cases place <;> rfl

theorem guest_entered (place : Place σ τ υ) (depth : Int) (seats : Seat σ × Seat τ)
    (signal : Signal) :
    place.guest (.entered depth seats signal) = .entered depth (place.seat seats) signal := by
  unfold Pair.entered Guest.entered
  split <;> cases place <;> rfl

theorem guest_close (place : Place σ τ υ) (depth : Int) (seats : Seat σ × Seat τ) :
    place.guest (.close ⟨depth, seats.1, seats.2⟩) =
      ⟨depth - 1, (place.seat seats).resumed depth⟩ := by
  cases place <;> rfl

end Place

section Pairs
variable {Γ γ σ τ υ : Type} {look : Γ → γ} {a : Visitor Γ σ} {b : Visitor Γ τ}
variable {v : Visitor Γ υ}

/-- A pair hosts one of its visitors if what becomes of a node is up to this visitor
wherever it is called. -/
theorem hosts_of_carries (place : Place σ τ υ)
    (enter_called : ∀ n position c d (p : Pair σ τ), look c = look d →
      (place.guest p).turn = .visiting →
      (p.enterBoth a b (p.depth + 1) n position c).Carries look place.seat (.start n)
        (some (p.depth + 1)) (v.enter n position d (place.guest p).state))
    (enter_aside : ∀ n position c (p : Pair σ τ), (place.guest p).turn ≠ .visiting →
      let called := p.enterBoth a b (p.depth + 1) n position c
      called.Leaves look (.start n) c ∧ place.seat called.seats = (place.guest p).seat)
    (leave_called : ∀ n position c d (p : Pair σ τ), look c = look d →
      (place.guest p).turn.resumed p.depth = .visiting →
      (p.leaveBoth a b n position c).Carries look place.seat (.start n) none
        (v.leave n position d (place.guest p).state))
    (leave_aside : ∀ n position c (p : Pair σ τ),
      (place.guest p).turn.resumed p.depth ≠ .visiting →
      let called := p.leaveBoth a b n position c
      called.Leaves look (.start n) c ∧ place.seat called.seats = (place.guest p).seat) :
    Hosts (a.compose b) v look place.guest where
  enter_called := by
    intro n position c d p hlook hturn
    have hstate : (place.guest (p.opened position)).state = (place.guest p).state := by
      rw [Place.guest_opened, Guest.state_opened]
    rw [← Place.guest_opened, ← hstate] at *
    have hcalled := enter_called n position c d (p.opened position) hlook hturn
    generalize hcalls : (p.opened position).enterBoth a b _ n position c = called at hcalled
    have htaken := hcalled.taken
    -- What the guest asked for is what the pair took up, so the pair's own answer shows it.
    cases hsignal : (v.enter n position d (place.guest (p.opened position)).state).signal with
    | error e =>
      rw [hsignal] at htaken
      rw [Visitor.compose_enter_error rfl hcalls htaken]
      exact .of_error hsignal hcalled.context hcalled.state rfl
    | ok wanted =>
      rw [hsignal] at htaken
      rw [Visitor.compose_enter_ok rfl hcalls htaken]
      apply Shows.of_ok hsignal hcalled.context _ rfl
      · rw [Place.guest_entered, Place.signal_eq]
        exact Guest.enterShown_signal n _ wanted _ _
          (Prod.ext rfl (hcalled.turn wanted hsignal).symm)
      · rw [Place.guest_entered, Guest.state_entered]
        exact hcalled.state
  enter_aside := by
    intro n position c p hturn
    have hstate : (place.guest (p.opened position)).state = (place.guest p).state := by
      rw [Place.guest_opened, Guest.state_opened]
    rw [← Place.guest_opened, ← hstate] at *
    obtain ⟨hleaves, hseat⟩ := enter_aside n position c (p.opened position) hturn
    generalize hcalls : (p.opened position).enterBoth a b _ n position c = called at *
    rw [Visitor.compose_enter_ok rfl hcalls hleaves.pass]
    refine ⟨hleaves.context, ?_, _, rfl, ?_⟩
    · rw [Place.guest_entered, Guest.state_entered, hseat]
      rfl
    · rw [Place.guest_entered, Place.signal_eq, hseat]
      exact Guest.asideShown_entered n _ _ _ hturn
  leave_called := by
    intro n position c d p hlook hturn
    have hcalled := leave_called n position c d p hlook hturn
    generalize hcalls : p.leaveBoth a b n position c = called at hcalled
    have htaken := hcalled.taken
    cases hsignal : (v.leave n position d (place.guest p).state).signal with
    | error e =>
      rw [hsignal] at htaken
      rw [Visitor.compose_leave_error hcalls htaken]
      apply Shows.of_error hsignal hcalled.context _ rfl
      rw [Place.guest_close]
      exact hcalled.state
    | ok wanted =>
      rw [hsignal] at htaken
      rw [Visitor.compose_leave_ok hcalls htaken]
      apply Shows.of_ok hsignal hcalled.context _ rfl
      · rw [Place.guest_close, place.signal_resumed]
        exact Guest.leaveShown_signal n _ wanted _ _
          (Prod.ext rfl (hcalled.turn wanted hsignal).symm)
      · rw [Place.guest_close]
        exact hcalled.state
  leave_aside := by
    intro n position c p hturn
    obtain ⟨hleaves, hseat⟩ := leave_aside n position c p hturn
    generalize hcalls : p.leaveBoth a b n position c = called at *
    rw [Visitor.compose_leave_ok hcalls hleaves.pass]
    refine ⟨hleaves.context, ?_, _, rfl, ?_⟩
    · rw [Place.guest_close, hseat]
      rfl
    · rw [Place.guest_close, place.signal_resumed, hseat]
      exact Guest.asideShown_left n _ _ _ hturn

end Pairs

section
variable {Γ γ σ τ : Type} {look : Γ → γ} {a : Visitor Γ σ} {b : Visitor Γ τ}

theorem Visitor.Observes.enter_leaves (hb : b.Observes look) (depth : Int)
    (position : Position) (seat : Seat τ) (pass : Pass) (c : Γ) :
    (seat.enter b depth position pass c).Leaves look pass c :=
  Seat.call_leaves hb.enter (some depth) position seat pass c

theorem Visitor.Observes.leave_leaves (hb : b.Observes look) (depth : Int)
    (position : Position) (seat : Seat τ) (pass : Pass) (c : Γ) :
    (seat.leave b depth position pass c).Leaves look pass c :=
  Seat.call_leaves hb.leave none position (seat.resumed depth) pass c

/-- A pair of a visitor and then an observer hosts the visitor. -/
theorem compose_hosts_first (ha : a.Sees look) (hb : b.Observes look) :
    Hosts (a.compose b) a look Place.first.guest := by
  apply hosts_of_carries .first
  case enter_called =>
    intro n position c d p hlook hturn
    exact (Seat.call_carries ha.enter _ hturn _ position (.start n) hlook).first
      (hb.enter_leaves _ position p.second)
  case enter_aside =>
    intro n position c p hturn
    have haside : p.first.enter a (p.depth + 1) position (.start n) c =
        ⟨.ok (.start n), c, p.first⟩ := Seat.call_aside _ hturn
    simp only [Pair.enterBoth, haside]
    refine ⟨Called.Leaves.andThen ⟨rfl, rfl⟩ fun c => hb.enter_leaves _ position _ _ c, ?_⟩
    rw [Called.andThen_ok rfl (Pass.isDeleted_start n)]
    rfl
  case leave_called =>
    intro n position c d p hlook hturn
    exact (Seat.call_carries ha.leave (p.first.resumed p.depth) hturn none position
      (.start n) hlook).first (hb.leave_leaves _ position p.second)
  case leave_aside =>
    intro n position c p hturn
    have haside := Seat.leave_aside (v := a) hturn position (.start n) c
    simp only [Pair.leaveBoth]
    rw [show p.first.leave a p.depth position (.start n) c = _ from haside]
    refine ⟨Called.Leaves.andThen ⟨rfl, rfl⟩ fun c => hb.leave_leaves _ position _ _ c, ?_⟩
    rw [Called.andThen_ok rfl (Pass.isDeleted_start n)]
    rfl

/-- A pair of an observer and then a visitor hosts the visitor. -/
theorem compose_hosts_second (ha : a.Sees look) (hb : b.Observes look) :
    Hosts (b.compose a) a look Place.second.guest := by
  apply hosts_of_carries .second
  case enter_called =>
    intro n position c d p hlook hturn
    exact (hb.enter_leaves _ position p.first (.start n) c).second hlook fun c hlook =>
      Seat.call_carries ha.enter _ hturn _ position (.start n) hlook
  case enter_aside =>
    intro n position c p hturn
    have haside : ∀ c, p.second.enter a (p.depth + 1) position (.start n) c =
        ⟨.ok (.start n), c, p.second⟩ := fun c => Seat.call_aside _ hturn
    have hfirst := hb.enter_leaves (p.depth + 1) position p.first (.start n) c
    refine ⟨hfirst.andThen fun c => by rw [haside]; exact ⟨rfl, rfl⟩, ?_⟩
    rw [Pair.enterBoth, Called.andThen_ok hfirst.pass (Pass.isDeleted_start n), haside]
    rfl
  case leave_called =>
    intro n position c d p hlook hturn
    exact (hb.leave_leaves _ position p.first (.start n) c).second hlook fun c hlook =>
      Seat.call_carries ha.leave (p.second.resumed p.depth) hturn none position
        (.start n) hlook
  case leave_aside =>
    intro n position c p hturn
    have haside : ∀ c, p.second.leave a p.depth position (.start n) c =
        ⟨.ok (.start n), c, p.second⟩ := fun c => Seat.leave_aside hturn position (.start n) c
    have hfirst := hb.leave_leaves p.depth position p.first (.start n) c
    refine ⟨hfirst.andThen fun c => by rw [haside]; exact ⟨rfl, rfl⟩, ?_⟩
    rw [Pair.leaveBoth, Called.andThen_ok hfirst.pass (Pass.isDeleted_start n), haside]
    rfl

end

end QueryDoc
