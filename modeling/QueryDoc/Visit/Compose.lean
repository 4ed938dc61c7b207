import QueryDoc.Visit.Visitor

/-! Two visitors in one walk. At each node the first visitor is called and then the
second one; of their edits of a node the first counts, and the second visitor is
called with the edited node. A visitor that skips is paused until that node is
left, and one that stops is paused until the next walk begins. -/
namespace QueryDoc

/-- Whether a visitor takes part in a walk. -/
inductive Turn where
  | visiting
  /-- The visitor skipped the node at a depth and waits for it to be left. -/
  | skipping (depth : Int)
  | stopped
deriving DecidableEq, Repr

namespace Turn

/-- The turn of a visitor that waited for the node at a depth. -/
def resumed (depth : Int) (t : Turn) : Turn :=
  if t = .skipping depth then .visiting else t

@[simp] theorem resumed_visiting (depth : Int) : visiting.resumed depth = visiting := rfl

@[simp] theorem resumed_stopped (depth : Int) : stopped.resumed depth = stopped := rfl

@[simp] theorem resumed_self (depth : Int) : (skipping depth).resumed depth = visiting :=
  if_pos rfl

/-- A turn that does not wait for the node at a depth stays the same. -/
theorem resumed_of_ne {depth : Int} {t : Turn} (h : t ≠ skipping depth) :
    t.resumed depth = t :=
  if_neg h

theorem resumed_of_paused {depth : Int} {t : Turn} (h : t.resumed depth ≠ visiting) :
    t.resumed depth = t := by
  apply resumed_of_ne
  rintro rfl
  exact h (resumed_self depth)

end Turn

/-- The state of a visitor among others, and whether it takes part. -/
structure Seat (σ : Type) where
  turn : Turn
  state : σ
deriving DecidableEq

/-- Takes part again, if it waited for the node at a depth. -/
def Seat.resumed {σ : Type} (depth : Int) (s : Seat σ) : Seat σ :=
  { s with turn := s.turn.resumed depth }

/-- The state of a pair of visitors. -/
structure Pair (σ τ : Type) where
  /-- How many nodes are open, as the pair counts them. A pair inside of another one
  counts by its own signals, which the other one may overrule, so the count may even
  fall below zero. -/
  depth : Int
  first : Seat σ
  second : Seat τ
deriving DecidableEq

namespace Pair

variable {σ τ : Type}

/-- A pair before its first walk. -/
def start (first : σ) (second : τ) : Pair σ τ := ⟨0, ⟨.visiting, first⟩, ⟨.visiting, second⟩⟩

/-- Forgets everything about earlier walks but the states of the two visitors. -/
def restart (p : Pair σ τ) : Pair σ τ := .start p.first.state p.second.state

/-- One open node less, for which no visitor waits any more. -/
def close (p : Pair σ τ) : Pair σ τ :=
  ⟨p.depth - 1, p.first.resumed p.depth, p.second.resumed p.depth⟩

end Pair

/-- A node in the hands of several visitors, and the edit of it that counts. -/
structure Pass where
  node : Node
  edit : Option Edit
deriving DecidableEq

namespace Pass

def start (n : Node) : Pass := ⟨n, none⟩

/-- Takes up an edit, unless there is one already. -/
def take (p : Pass) (e : Edit) : Pass :=
  match p.edit with
  | some _ => p
  | none =>
    match e with
    | .replace n | .restore n => ⟨n, some e⟩
    | _ => { p with edit := some e }

/-- Takes up a visitor's signal. A skip pauses the visitor where a depth to wait for
is given. -/
def apply (p : Pass) (turn : Turn) (skipDepth : Option Int) : Signal → Pass × Turn
  | .next => (p, turn)
  | .skip =>
    match skipDepth with
    | some depth => (p, .skipping depth)
    | none => (p, turn)
  | .stop => (p, .stopped)
  | .edit e => (p.take e, turn)

def isDeleted (p : Pass) : Bool := p.edit = some .delete

/-- The signal of a pair: a deletion first, then a stop of both, then an edit, and
a skip where neither takes part. -/
def signal (p : Pass) (firstTurn secondTurn : Turn) : Signal :=
  if p.isDeleted then .edit .delete
  else if firstTurn = .stopped ∧ secondTurn = .stopped then .stop
  else
    match p.edit with
    | some e => .edit e
    | none => if firstTurn ≠ .visiting ∧ secondTurn ≠ .visiting then .skip else .next

@[simp] theorem isDeleted_start (n : Node) : (start n).isDeleted = false := rfl

end Pass

/-- What there is to go on with after visitors were called for a node. -/
structure Called (γ α : Type) where
  pass : Except Error Pass
  context : γ
  /-- The seats of the visitors. -/
  seats : α

namespace Called

variable {γ α β : Type}

/-- Calls others for the node as well, unless it was deleted. -/
def andThen (called : Called γ α) (others : β) (call : β → Pass → γ → Called γ β) :
    Called γ (α × β) :=
  match called.pass with
  | .error e => ⟨.error e, called.context, (called.seats, others)⟩
  | .ok pass =>
    if pass.isDeleted then ⟨.ok pass, called.context, (called.seats, others)⟩
    else
      let called' := call others pass called.context
      ⟨called'.pass, called'.context, (called.seats, called'.seats)⟩

variable {called : Called γ α} {others : β} {call : β → Pass → γ → Called γ β}

theorem andThen_error {e : Error} (h : called.pass = .error e) :
    called.andThen others call = ⟨.error e, called.context, (called.seats, others)⟩ := by
  simp only [andThen, h]

theorem andThen_deleted {pass : Pass} (h : called.pass = .ok pass)
    (hdeleted : pass.isDeleted = true) :
    called.andThen others call = ⟨.ok pass, called.context, (called.seats, others)⟩ := by
  simp only [andThen, h, hdeleted, if_true]

theorem andThen_ok {pass : Pass} (h : called.pass = .ok pass)
    (hkept : pass.isDeleted = false) :
    called.andThen others call =
      ⟨(call others pass called.context).pass, (call others pass called.context).context,
        (called.seats, (call others pass called.context).seats)⟩ := by
  simp only [andThen, h, hkept, Bool.false_eq_true, if_false]

end Called

namespace Seat

variable {γ σ : Type}

/-- Calls a visitor, if it takes part. -/
def call (hook : Hook γ σ) (skipDepth : Option Int) (position : Position) (seat : Seat σ)
    (pass : Pass) (context : γ) : Called γ (Seat σ) :=
  if seat.turn = .visiting then
    let reply := hook pass.node position context seat.state
    match reply.signal with
    | .error e => ⟨.error e, reply.context, { seat with state := reply.state }⟩
    | .ok signal =>
      let (pass, turn) := pass.apply seat.turn skipDepth signal
      ⟨.ok pass, reply.context, ⟨turn, reply.state⟩⟩
  else ⟨.ok pass, context, seat⟩

section
variable {hook : Hook γ σ} {position : Position} {pass : Pass} {context : γ} {seat : Seat σ}

theorem call_aside (skipDepth : Option Int) (h : seat.turn ≠ .visiting) :
    seat.call hook skipDepth position pass context = ⟨.ok pass, context, seat⟩ :=
  if_neg h

theorem call_error (skipDepth : Option Int) (h : seat.turn = .visiting) {e : Error}
    (hsignal : (hook pass.node position context seat.state).signal = .error e) :
    seat.call hook skipDepth position pass context =
      ⟨.error e, (hook pass.node position context seat.state).context,
        ⟨.visiting, (hook pass.node position context seat.state).state⟩⟩ := by
  simp only [call, h, if_true, hsignal]

theorem call_ok (skipDepth : Option Int) (h : seat.turn = .visiting) {signal : Signal}
    (hsignal : (hook pass.node position context seat.state).signal = .ok signal) :
    seat.call hook skipDepth position pass context =
      ⟨.ok (pass.apply .visiting skipDepth signal).1,
        (hook pass.node position context seat.state).context,
        ⟨(pass.apply .visiting skipDepth signal).2,
          (hook pass.node position context seat.state).state⟩⟩ := by
  simp only [call, h, if_true, hsignal]

end

/-- Calls a visitor for a node that is entered and is the open one at a depth. -/
def enter (v : Visitor γ σ) (depth : Int) (position : Position) (seat : Seat σ) :
    Pass → γ → Called γ (Seat σ) :=
  seat.call v.enter (some depth) position

/-- Calls a visitor for the node at a depth that is left. If the visitor waits for the
node it resumes right before its call. -/
def leave (v : Visitor γ σ) (depth : Int) (position : Position) (seat : Seat σ) :
    Pass → γ → Called γ (Seat σ) :=
  (seat.resumed depth).call v.leave none position

theorem leave_aside {v : Visitor γ σ} {depth : Int} {seat : Seat σ}
    (h : seat.turn.resumed depth ≠ .visiting) (position : Position) (pass : Pass)
    (context : γ) : seat.leave v depth position pass context = ⟨.ok pass, context, seat⟩ := by
  have hsame : seat.resumed depth = seat := by
    simp only [resumed, Turn.resumed_of_paused h]
  rw [leave, call_aside none h, hsame]

end Seat

namespace Pair

variable {γ σ τ : Type}

/-- The pair when a node at a position is entered: at the root everything begins anew. -/
def opened (position : Position) (p : Pair σ τ) : Pair σ τ :=
  if position.ancestors.isEmpty then p.restart else p

/-- Calls both visitors for a node that is entered and is the open one at a depth. -/
def enterBoth (a : Visitor γ σ) (b : Visitor γ τ) (depth : Int) (n : Node)
    (position : Position) (context : γ) (p : Pair σ τ) : Called γ (Seat σ × Seat τ) :=
  (p.first.enter a depth position (.start n) context).andThen p.second
    (·.enter b depth position)

/-- Calls both visitors for the innermost open node, which is left. -/
def leaveBoth (a : Visitor γ σ) (b : Visitor γ τ) (n : Node) (position : Position)
    (context : γ) (p : Pair σ τ) : Called γ (Seat σ × Seat τ) :=
  (p.first.leave a p.depth position (.start n) context).andThen p.second
    (·.leave b p.depth position)

/-- A pair that called its visitors for a node that it enters at a depth, after the
signal that it gives: unless the node stays open, it is closed again. -/
def entered (depth : Int) (seats : Seat σ × Seat τ) (signal : Signal) : Pair σ τ :=
  let pair : Pair σ τ := ⟨depth, seats.1, seats.2⟩
  if signal = .edit .delete ∨ signal = .stop then pair.close else pair

section
variable {depth : Int} {seats : Seat σ × Seat τ} {signal : Signal}

theorem entered_stays (hdelete : signal ≠ .edit .delete) (hstop : signal ≠ .stop) :
    entered depth seats signal = ⟨depth, seats.1, seats.2⟩ :=
  if_neg (not_or.mpr ⟨hdelete, hstop⟩)

theorem entered_closes (h : signal = .edit .delete ∨ signal = .stop) :
    entered depth seats signal = .close ⟨depth, seats.1, seats.2⟩ :=
  if_pos h

end
end Pair

namespace Visitor

variable {γ σ τ : Type}

/-- Runs two visitors in one walk. -/
def compose (a : Visitor γ σ) (b : Visitor γ τ) : Visitor γ (Pair σ τ) where
  enter n position context pair :=
    let pair := pair.opened position
    let depth := pair.depth + 1
    let called := pair.enterBoth a b depth n position context
    match called.pass with
    | .error e => ⟨.error e, called.context, ⟨depth, called.seats.1, called.seats.2⟩⟩
    | .ok pass =>
      let signal := pass.signal called.seats.1.turn called.seats.2.turn
      ⟨.ok signal, called.context, .entered depth called.seats signal⟩
  leave n position context pair :=
    let called := pair.leaveBoth a b n position context
    let pair := Pair.close ⟨pair.depth, called.seats.1, called.seats.2⟩
    match called.pass with
    | .error e => ⟨.error e, called.context, pair⟩
    | .ok pass =>
      ⟨.ok (pass.signal pair.first.turn pair.second.turn), called.context, pair⟩

section
variable {a : Visitor γ σ} {b : Visitor γ τ} {n : Node} {position : Position} {context : γ}
variable {pair : Pair σ τ} {depth : Int} {called : Called γ (Seat σ × Seat τ)}

theorem compose_enter_error (hdepth : (pair.opened position).depth + 1 = depth)
    (hcalled : (pair.opened position).enterBoth a b depth n position context = called)
    {e : Error} (h : called.pass = .error e) :
    (a.compose b).enter n position context pair =
      ⟨.error e, called.context, ⟨depth, called.seats.1, called.seats.2⟩⟩ := by
  subst hdepth
  simp only [compose, hcalled, h]

theorem compose_enter_ok (hdepth : (pair.opened position).depth + 1 = depth)
    (hcalled : (pair.opened position).enterBoth a b depth n position context = called)
    {pass : Pass} (h : called.pass = .ok pass) :
    (a.compose b).enter n position context pair =
      ⟨.ok (pass.signal called.seats.1.turn called.seats.2.turn), called.context,
        .entered depth called.seats (pass.signal called.seats.1.turn called.seats.2.turn)⟩ := by
  subst hdepth
  simp only [compose, hcalled, h]

theorem compose_leave_error (hcalled : pair.leaveBoth a b n position context = called)
    {e : Error} (h : called.pass = .error e) :
    (a.compose b).leave n position context pair =
      ⟨.error e, called.context, .close ⟨pair.depth, called.seats.1, called.seats.2⟩⟩ := by
  simp only [compose, hcalled, h]

theorem compose_leave_ok (hcalled : pair.leaveBoth a b n position context = called)
    {pass : Pass} (h : called.pass = .ok pass) :
    (a.compose b).leave n position context pair =
      ⟨.ok (pass.signal (called.seats.1.turn.resumed pair.depth)
          (called.seats.2.turn.resumed pair.depth)), called.context,
        .close ⟨pair.depth, called.seats.1, called.seats.2⟩⟩ := by
  simp only [compose, hcalled, h]
  rfl

end
end Visitor
end QueryDoc
