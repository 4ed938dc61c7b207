import QueryDoc.Grammar.Rule
import QueryDoc.Lexical.Lexer

/-! Actions on a cursor in a source text. A rule maps the terminals that remain to a result; an
action moves a cursor over the text itself and scans each terminal where the cursor stands. An
action that fails leaves the cursor wherever it has got to, and what goes on after a failure takes
the cursor back to where it was. Rules and actions are built in the same ways, which are those of
an engine. -/
namespace QueryDoc
open Lexer

/-- A cursor in a text. -/
structure Cursor where
  /-- What of the text is not read yet. -/
  place : List Char
  /-- The setbacks so far, in order. -/
  trail : List Setback

namespace Cursor

def goTo (c : Cursor) (place : List Char) : Cursor := { c with place := place }

/-- No terminal that was asked for stands where the cursor is. -/
def miss (c : Cursor) : Cursor := { c with trail := c.trail ++ [.miss (terminalsAt c.place)] }

/-- A sequence is given up where the cursor is. -/
def giveUp (c : Cursor) (kind : Kind) : Cursor :=
  { c with trail := c.trail ++ [.gaveUp (terminalsAt c.place) kind] }

end Cursor

/-- Something that is done with a cursor. It gives a result, or the kind that it missed, and
leaves the cursor somewhere in any case; one that never comes to an end gives nothing. -/
def Action (α : Type) := Cursor → Option (Except Kind α × Cursor)

namespace Action
variable {α β : Type}

def pure (a : α) : Action α := fun c => some (.ok a, c)

/-- Where the first action fails, the cursor stays where that has left it. -/
def bind (r : Action α) (f : α → Action β) : Action β := fun c =>
  match r c with
  | some (.ok a, c') => f a c'
  | some (.error kind, c') => some (.error kind, c')
  | none => none

instance : Monad Action where
  pure := Action.pure
  bind := Action.bind

def fail (kind : Kind) : Action α := fun c => some (.error kind, c)

/-- Scans one terminal that a test accepts, and the ignored input after it. -/
def terminal (kind : Kind) (accept : Token → Option α) : Action α := fun c =>
  match scan c.place with
  | none => some (.error kind, c.miss)
  | some (t, rest) =>
    match accept t with
    | some a => some (.ok a, c.goTo (begin t.isSigil rest))
    | none => some (.error kind, c.miss)

/-- Scans a whole name. If it is not the given word, the cursor goes back before it. -/
def keyword (word : String) (kind : Kind) : Action Unit := fun c =>
  match terminal kind (fun | .name text => some text | _ => none) c with
  | some (.ok text, c') =>
    if text = word then some (.ok (), c') else some (.error kind, (c'.goTo c.place).miss)
  | some (.error kind, c') => some (.error kind, c')
  | none => none

def finish (kind : Kind) : Action Unit := fun c =>
  if c.place.isEmpty then some (.ok (), c) else some (.error kind, c.miss)

/-- Where the first action fails, the second one is done where that has left the cursor. -/
def orElse (r s : Action α) : Action α := fun c =>
  match r c with
  | some (.ok a, c') => some (.ok a, c')
  | some (.error _, c') => s c'
  | none => none

def expecting (kind : Kind) (r : Action α) : Action α := fun c =>
  match r c with
  | some (.ok a, c') => some (.ok a, c')
  | some (.error _, c') => some (.error kind, c')
  | none => none

/-- Does an action as a whole: where it fails, the cursor goes back to its start. -/
def attempt (r : Action α) : Action α := fun c =>
  match r c with
  | some (.ok a, c') => some (.ok a, c')
  | some (.error kind, c') => some (.error kind, (c'.goTo c.place).giveUp kind)
  | none => none

/-- Attempts an action until it fails. One that succeeds without reading anything would do so
again each time, so the repetition never comes to an end. -/
def many (r : Action α) : Action (List α) := fun c =>
  match attempt r c with
  | some (.ok a, c') =>
    if c'.place.length < c.place.length then
      match many r c' with
      | some (.ok as, c'') => some (.ok (a :: as), c'')
      | some (.error kind, c'') => some (.error kind, c'')
      | none => none
    else none
  | some (.error _, c') => some (.ok [], c')
  | none => none
termination_by c => c.place.length

/-- Looks ahead: whether the action fails or not, the cursor goes back to where it was. -/
def notFollowedBy (kind : Kind) (r : Action α) : Action Unit := fun c =>
  match r c with
  | some (.ok _, c') => some (.error kind, (c'.goTo c.place).miss)
  | some (.error _, c') => some (.ok (), c'.goTo c.place)
  | none => none

end Action

/-! ## Engines -/

/-- The primitives that the productions of the grammar are composed of. -/
class Engine (m : Type → Type) where
  fail : {α : Type} → Kind → m α
  terminal : {α : Type} → Kind → (Token → Option α) → m α
  keyword : String → Kind → m Unit
  orElse : {α : Type} → m α → m α → m α
  expecting : {α : Type} → Kind → m α → m α
  attempt : {α : Type} → m α → m α
  many : {α : Type} → m α → m (List α)
  notFollowedBy : {α : Type} → Kind → m α → m Unit

instance : Engine Rule where
  fail := Rule.fail
  terminal := Rule.terminal
  keyword := Rule.keyword
  orElse := Rule.orElse
  expecting := Rule.expecting
  attempt := Rule.attempt
  many := Rule.many
  notFollowedBy := Rule.notFollowedBy

instance : Engine Action where
  fail := Action.fail
  terminal := Action.terminal
  keyword := Action.keyword
  orElse := Action.orElse
  expecting := Action.expecting
  attempt := Action.attempt
  many := Action.many
  notFollowedBy := Action.notFollowedBy

namespace Engine
variable {m : Type → Type} [Monad m] [Engine m] {α : Type}

def token (t : Token) (kind : Kind) : m Unit :=
  terminal kind fun t' => if t' = t then some () else none

def optional (r : m α) : m (Option α) :=
  orElse (attempt r >>= fun a => pure (some a)) (pure none)

/-- Tells whether a given terminal comes next, and takes it then. -/
def takes (t : Token) (kind : Kind) : m Bool :=
  orElse (token t kind >>= fun _ => pure true) (pure false)

def many1 (r : m α) : m (List α) := do
  let a ← attempt r
  let as ← many r
  return a :: as

/-- One or more in parentheses, or nothing. -/
def group (kind : Kind) (item : m α) : m (List α) := do
  let found ← optional do
    token .parenL kind
    let items ← many1 item
    token .parenR kind
    return items
  return found.getD []

end Engine
end QueryDoc
