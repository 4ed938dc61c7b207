import QueryDoc.Visit.Walk

/-! Walks through a tree, step by step, with the open nodes on a stack: the form
that runs, since it does not nest however deep a tree is. Each step enters one
node or leaves one. -/
namespace QueryDoc

/-- An open node, with the children that wait and the results for the others. -/
structure Frame where
  /-- The node as its parent holds it. -/
  held : Node
  /-- The node whose children are walked. -/
  node : Node
  /-- Whether `node` took the place of `held`. -/
  changed : Bool
  /-- How many segments the key of the node has. -/
  keyLength : Nat
  pending : List Child
  /-- The entries for the children walked so far, the latest first. -/
  entries : List (Option Node)
  /-- Whether one of these children changed. -/
  edited : Bool

namespace Frame

/-- Takes up what became of the next child. It counts as an edit unless the child is still
the very node that this frame holds. -/
def deliver (f : Frame) (child : Node) (fate : Fate) : Frame :=
  { f with entries := fate.node? child :: f.entries, edited := f.edited || fate.isEdit }

/-- What becomes of the open node; the children that wait stay as they are. -/
def finish (f : Frame) : Except Error Fate :=
  closeNode f.node f.changed f.edited (f.entries.reverse ++ f.pending.map (some ·.node))

end Frame

/-- Closes all open nodes after a stop at a child of the top one. -/
def settle : List Frame → Node → Fate → Except Error Fate
  | [], _, fate => .ok fate
  | f :: below, child, fate => do
    let closed ← (f.deliver child fate).finish
    settle below f.held closed

/-- The state of a walk. -/
structure Machine (γ σ : Type) where
  /-- The open nodes, the innermost first. -/
  frames : List Frame
  /-- The position of the children of the innermost open node, without their key. -/
  position : Position
  context : γ
  state : σ

namespace Machine

variable {γ σ : Type}

/-- A walk goes on or has ended. -/
inductive Status (γ σ : Type) where
  | running (m : Machine γ σ)
  | ended (a : Answer γ σ)

/-- Enters a node with a key. `delivered` are the open nodes for the case that it
is deleted or the walk stopped, without the result for it. -/
def enter (v : Visitor γ σ) (n : Node) (key : List Segment) (frames : List Frame)
    (position : Position) (context : γ) (state : σ) : Status γ σ :=
  let here : Position := { position with path := position.path.extend key }
  let reply := v.enter n here context state
  match reply.signal with
  | .error e => .ended ⟨.error e, none, reply.context, reply.state⟩
  | .ok signal =>
    match signal.opening n with
    | .descend m changed children =>
      let frame : Frame := ⟨n, m, changed, key.length, children, [], false⟩
      let below : Position := { here with ancestors := here.ancestors ++ [m] }
      .running ⟨frame :: frames, below, reply.context, reply.state⟩
    | .deleted =>
      match frames with
      | [] => .ended ⟨.ok .deleted, none, reply.context, reply.state⟩
      | f :: rest =>
        .running ⟨f.deliver n .deleted :: rest, position, reply.context, reply.state⟩
    | .stopped =>
      .ended ⟨settle frames n .kept, some frames.length, reply.context, reply.state⟩

/-- Leaves the innermost open node, all of whose children have been walked. -/
def leave (v : Visitor γ σ) (f : Frame) (frames : List Frame) (position : Position)
    (context : γ) (state : σ) : Status γ σ :=
  let here : Position := { position with ancestors := position.ancestors.dropLast }
  match f.finish with
  | .error e => .ended ⟨.error e, none, context, state⟩
  | .ok fate =>
    let reply := v.leave ((fate.node? f.node).getD f.node) here context state
    match reply.signal with
    | .error e => .ended ⟨.error e, none, reply.context, reply.state⟩
    | .ok signal =>
      let closed := signal.closing f.held fate
      if signal = .stop then
        .ended ⟨settle frames f.held closed, some frames.length, reply.context,
          reply.state⟩
      else
        match frames with
        | [] => .ended ⟨.ok closed, none, reply.context, reply.state⟩
        | parent :: rest =>
          .running ⟨parent.deliver f.held closed :: rest,
            { here with path := here.path.drop f.keyLength }, reply.context, reply.state⟩

/-- One step of a walk. A walk without open nodes has ended with its root kept. -/
def step (v : Visitor γ σ) (m : Machine γ σ) : Status γ σ :=
  match m.frames with
  | [] => .ended ⟨.ok .kept, none, m.context, m.state⟩
  | f :: rest =>
    match f.pending with
    | c :: pending =>
      enter v c.node c.key ({ f with pending := pending } :: rest) m.position m.context m.state
    | [] => leave v f rest m.position m.context m.state

/-- Goes on for a number of steps, to the end of the walk if it is reached. -/
def run (v : Visitor γ σ) : Nat → Status γ σ → Option (Answer γ σ)
  | _, .ended a => some a
  | 0, .running _ => none
  | steps + 1, .running m => run v steps (step v m)

end Machine

/-- Walks a tree with a visitor, for at most a number of steps. -/
def visit {γ σ : Type} (steps : Nat) (v : Visitor γ σ) (root : Node) (context : γ)
    (state : σ) : Option (Answer γ σ) :=
  Machine.run v steps (Machine.enter v root [] [] .root context state)

end QueryDoc
