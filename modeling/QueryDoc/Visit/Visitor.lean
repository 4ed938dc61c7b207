import QueryDoc.Tree.Children
import QueryDoc.Tree.Path

/-! Visitors: what is to be done where a walk comes to a node and where it leaves
it again. A visitor has a state of its own and shares a context with others; its
answer to a node is a signal, or an error that ends the walk. -/
namespace QueryDoc

/-- A change to a node. -/
inductive Edit where
  /-- The node stays as it is, and no visitor after this one may change it. -/
  | keep
  | replace (n : Node)
  /-- A node that a walk has met is given back in the place of another one. Where the parent
  still holds that very node, nothing has changed in the end. -/
  | restore (n : Node)
  | delete
deriving DecidableEq

/-- An edit puts a node in the place of another one. -/
def Edit.Puts (e : Edit) (r : Node) : Prop := e = .replace r ∨ e = .restore r

/-- What a visitor wants. -/
inductive Signal where
  /-- Go on. -/
  | next
  /-- Go on without the children of the node. It says nothing when leaving. -/
  | skip
  /-- End the walk with the edits made so far. -/
  | stop
  /-- Change the node and go on below what takes its place. -/
  | edit (e : Edit)
deriving DecidableEq

/-- Where a node stands: the way to it and the nodes on the way, from the root to
its parent. -/
structure Position where
  path : Path
  ancestors : List Node
deriving DecidableEq

namespace Position

def root : Position := ⟨.empty, []⟩

/-- The key of a node in its parent. -/
def key? (p : Position) : Option Segment := p.path.last?

def parent? (p : Position) : Option Node := p.ancestors.getLast?

/-- The position of a child in the node at this position. -/
def child (p : Position) (parent : Node) (key : List Segment) : Position :=
  ⟨p.path.extend key, p.ancestors ++ [parent]⟩

end Position

/-- A visitor's answer, with what became of the context and its state. -/
structure Reply (γ σ : Type) where
  signal : Except Error Signal
  context : γ
  state : σ

/-- What to do at a node. -/
abbrev Hook (γ σ : Type) := Node → Position → γ → σ → Reply γ σ

/-- What to do at the nodes of a walk, on the way down and on the way up. -/
structure Visitor (γ σ : Type) where
  enter : Hook γ σ
  leave : Hook γ σ

namespace Hook

variable {γ σ : Type}

/-- Wants nothing. -/
def idle : Hook γ σ := fun _ _ context state => ⟨.ok .next, context, state⟩

end Hook

/-- The shapes of nodes that a visitor can tell apart. -/
inductive Shape where
  | document
  | operation
  | fragment
  | variableDefinition
  | selectionSet
  | field
  | fragmentSpread
  | inlineFragment
  | argument
  | directive
  | variable
  | name
  | namedType
  | typeRef
  | value
  | objectField
deriving DecidableEq, Repr

namespace Node

def shape : Node → Shape
  | .document _ => .document
  | .operationDefinition _ => .operation
  | .fragmentDefinition _ => .fragment
  | .variableDefinition _ => .variableDefinition
  | .selectionSet _ => .selectionSet
  | .field _ => .field
  | .fragmentSpread _ => .fragmentSpread
  | .inlineFragment _ => .inlineFragment
  | .argument _ => .argument
  | .directive _ => .directive
  | .variable _ => .variable
  | .name _ => .name
  | .namedType _ => .namedType
  | .typeRef _ => .typeRef
  | .value _ => .value
  | .objectField _ => .objectField

/-- Whether a variable or a named type stands for itself here. -/
def isPlain : Node → Bool
  | .value (.variable _) => false
  | .typeRef (.named _) => false
  | _ => true

theorem isPlain_iff (n : Node) : n.isPlain = true ↔ n.plain = n := by
  match n with
  | .value v => cases v <;> simp [isPlain, plain, ofValue]
  | .typeRef t => cases t <;> simp [isPlain, plain, ofTypeRef]
  | .document _ | .operationDefinition _ | .fragmentDefinition _ | .variableDefinition _
  | .selectionSet _ | .field _ | .fragmentSpread _ | .inlineFragment _ | .argument _
  | .directive _ | .variable _ | .name _ | .namedType _ | .objectField _ =>
    simp [isPlain, plain]

end Node

/-- Hooks for nodes of some shapes, and general ones for the others. -/
structure Hooks (γ σ : Type) where
  enterAny : Hook γ σ := Hook.idle
  leaveAny : Hook γ σ := Hook.idle
  enterAt : Shape → Option (Hook γ σ) := fun _ => none
  leaveAt : Shape → Option (Hook γ σ) := fun _ => none

namespace Hooks

variable {γ σ : Type}

/-- A hook sees the plain form of a node. To keep that, where the node has another
form, is to put the plain form in its place. -/
def onPlain (hook : Hook γ σ) : Hook γ σ := fun n position context state =>
  let reply := hook n.plain position context state
  match reply.signal with
  | .ok (.edit .keep) =>
    if n.isPlain then reply else { reply with signal := .ok (.edit (.replace n.plain)) }
  | _ => reply

/-- The visitor that calls the hook for the shape of a node, or else the general
one. -/
def visitor (h : Hooks γ σ) : Visitor γ σ where
  enter := onPlain fun n => (h.enterAt n.shape).getD h.enterAny n
  leave := onPlain fun n => (h.leaveAt n.shape).getD h.leaveAny n

end Hooks
end QueryDoc
