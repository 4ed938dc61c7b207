import QueryDoc.Tree.Refill
import QueryDoc.Visit.Visitor

/-! Walks through a tree, by recursion: a node is entered, then its children are
walked from left to right, then the node is rebuilt if one of them changed, and
then it is left. After a stop nothing is called any more, and every node that is
still open keeps the rest of its children and is rebuilt with the edits made so
far. A visitor may put ever larger nodes in the place of others, so a walk has a
bound on its depth; a walk that ends is the same for every larger bound. -/
namespace QueryDoc

/-- What became of a node. -/
inductive Fate where
  /-- It is still the very node that its parent holds. -/
  | kept
  | changed (n : Node)
  | deleted
deriving DecidableEq

namespace Fate

/-- The node that there is now, in the place of a given one. -/
def node? (n : Node) : Fate → Option Node
  | .kept => some n
  | .changed m => some m
  | .deleted => none

/-- Whether anything happened to the node. -/
def isEdit : Fate → Bool
  | .kept => false
  | _ => true

end Fate

namespace Signal

/-- How a walk goes on after a node was entered. -/
inductive Opening where
  /-- Below a node, which took the place of the one entered or not. -/
  | descend (n : Node) (changed : Bool) (children : List Child)
  | deleted
  | stopped
deriving DecidableEq

/-- How a walk goes on after a signal on entering a node. -/
def opening (n : Node) : Signal → Opening
  | .next | .edit .keep => .descend n false n.children
  | .edit (.replace r) => .descend r true r.children
  | .edit (.restore r) => .descend r (r ≠ n) r.children
  | .skip => .descend n false []
  | .edit .delete => .deleted
  | .stop => .stopped

/-- What becomes of a node after a signal on leaving it. `held` is the node as its parent
holds it; whatever became of the node so far, to give that one back is to change nothing. -/
def closing (held : Node) (fate : Fate) : Signal → Fate
  | .next | .skip | .stop | .edit .keep => fate
  | .edit (.replace r) => .changed r
  | .edit (.restore r) => if r = held then .kept else .changed r
  | .edit .delete => .deleted

section
variable (n r held : Node) (fate : Fate)

@[simp] theorem opening_next : opening n .next = .descend n false n.children := rfl

@[simp] theorem opening_keep : opening n (.edit .keep) = .descend n false n.children := rfl

/-- Below a skipped node nothing is walked, but the node itself is left. -/
@[simp] theorem opening_skip : opening n .skip = .descend n false [] := rfl

@[simp] theorem opening_replace :
    opening n (.edit (.replace r)) = .descend r true r.children := rfl

/-- To give back the node that is entered is to go on with it. -/
@[simp] theorem opening_restore_self :
    opening n (.edit (.restore n)) = opening n .next := by
  simp [opening]

theorem opening_restore_of_ne (h : r ≠ n) :
    opening n (.edit (.restore r)) = opening n (.edit (.replace r)) := by
  simp [opening, h]

@[simp] theorem opening_delete : opening n (.edit .delete) = .deleted := rfl

@[simp] theorem opening_stop : opening n .stop = .stopped := rfl

@[simp] theorem closing_next : closing held fate .next = fate := rfl

@[simp] theorem closing_keep : closing held fate (.edit .keep) = fate := rfl

/-- There are no children left to be skipped. -/
@[simp] theorem closing_skip : closing held fate .skip = fate := rfl

/-- A stop keeps what became of the node so far. -/
@[simp] theorem closing_stop : closing held fate .stop = fate := rfl

@[simp] theorem closing_replace : closing held fate (.edit (.replace r)) = .changed r := rfl

/-- Edits below a node are undone, if the node is given back as its parent holds it. -/
@[simp] theorem closing_restore_self : closing held fate (.edit (.restore held)) = .kept :=
  if_pos rfl

theorem closing_restore_of_ne (h : r ≠ held) :
    closing held fate (.edit (.restore r)) = .changed r :=
  if_neg h

/-- Either way the node that is given back is the one that there is now. -/
@[simp] theorem node?_closing_restore :
    (closing held fate (.edit (.restore r))).node? held = some r := by
  by_cases h : r = held
  · rw [h, closing_restore_self]
    rfl
  · rw [closing_restore_of_ne r held fate h]
    rfl

@[simp] theorem closing_delete : closing held fate (.edit .delete) = .deleted := rfl

end
end Signal

/-- The node after its children were walked: rebuilt, if one of them changed. -/
def closeNode (n : Node) (changed edited : Bool) (entries : List (Option Node)) :
    Except Error Fate :=
  if edited then do return .changed (← n.refill entries)
  else .ok (if changed then .changed n else .kept)

/-- A node is rebuilt only if one of its children changed. -/
@[simp] theorem closeNode_unedited (n : Node) (changed : Bool) (entries : List (Option Node)) :
    closeNode n changed false entries = .ok (if changed then .changed n else .kept) := rfl

theorem closeNode_edited (n : Node) (changed : Bool) (entries : List (Option Node)) :
    closeNode n changed true entries = (n.refill entries).map .changed := by
  simp only [closeNode, if_true]
  cases n.refill entries <;> rfl

/-- The result of a walk. -/
structure Answer (γ σ : Type) where
  outcome : Except Error Fate
  /-- At how many open ancestors the visitor stopped the walk, if it did. -/
  stopDepth : Option Nat
  context : γ
  state : σ

namespace Answer

variable {γ σ : Type}

/-- What is noted for the developers of a program when a walk is stopped below its
root. -/
def notes (a : Answer γ σ) : List String :=
  match a.stopDepth with
  | some (n + 1) => ["Visitor stopped at a depth of " ++ toString (n + 1)]
  | _ => []

end Answer

/-- The result of walking the children of a node. -/
structure Passage (γ σ : Type) where
  /-- An entry for each child. -/
  entries : Except Error (List (Option Node))
  edited : Bool
  stopDepth : Option Nat
  context : γ
  state : σ

/-- Walks children one after the other, by a walk for a single node. -/
def walkChildren {γ σ : Type} (walk : Node → Position → γ → σ → Option (Answer γ σ))
    (parent : Node) (position : Position) :
    List Child → γ → σ → Option (Passage γ σ)
  | [], context, state => some ⟨.ok [], false, none, context, state⟩
  | c :: cs, context, state => do
    let first ← walk c.node (position.child parent c.key) context state
    match first.outcome with
    | .error e => some ⟨.error e, true, first.stopDepth, first.context, first.state⟩
    | .ok fate =>
      let entry := fate.node? c.node
      if first.stopDepth.isSome then
        some ⟨.ok (entry :: cs.map (some ·.node)), fate.isEdit, first.stopDepth,
          first.context, first.state⟩
      else do
        let others ← walkChildren walk parent position cs first.context first.state
        some { others with
          entries := others.entries.map (entry :: ·)
          edited := fate.isEdit || others.edited }

/-- Walks below a node that was entered, and leaves it. `held` is the node as it was entered. -/
def walkBelow {γ σ : Type} (v : Visitor γ σ)
    (walk : Node → Position → γ → σ → Option (Answer γ σ))
    (held n : Node) (changed : Bool) (children : List Child) (position : Position)
    (context : γ) (state : σ) : Option (Answer γ σ) := do
  let p ← walkChildren walk n position children context state
  match p.entries >>= closeNode n changed p.edited with
  | .error e => some ⟨.error e, p.stopDepth, p.context, p.state⟩
  | .ok fate =>
    if p.stopDepth.isSome then some ⟨.ok fate, p.stopDepth, p.context, p.state⟩
    else
      let reply := v.leave ((fate.node? n).getD n) position p.context p.state
      match reply.signal with
      | .error e => some ⟨.error e, none, reply.context, reply.state⟩
      | .ok signal =>
        let stopDepth := if signal = .stop then some position.ancestors.length else none
        some ⟨.ok (signal.closing held fate), stopDepth, reply.context, reply.state⟩

/-- Walks a node and everything below it, down to a depth; deeper than that, there
is no answer. -/
def walk {γ σ : Type} (v : Visitor γ σ) :
    Nat → Node → Position → γ → σ → Option (Answer γ σ)
  | 0, _, _, _, _ => none
  | depth + 1, n, position, context, state =>
    let reply := v.enter n position context state
    match reply.signal with
    | .error e => some ⟨.error e, none, reply.context, reply.state⟩
    | .ok signal =>
      match signal.opening n with
      | .deleted => some ⟨.ok .deleted, none, reply.context, reply.state⟩
      | .stopped =>
        some ⟨.ok .kept, some position.ancestors.length, reply.context, reply.state⟩
      | .descend m changed children =>
        walkBelow v (walk v depth) n m changed children position reply.context reply.state

end QueryDoc
