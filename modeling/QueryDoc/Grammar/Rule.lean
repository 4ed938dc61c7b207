import QueryDoc.Kind
import QueryDoc.Lexical.Token

/-! Rules of a grammar over terminals. A rule reads terminals from the front and
gives a result and what remains, or the kind of construct that it missed.
Choices are ordered and repetitions greedy; nothing that was read is given back
later. Beside its result a rule leaves a trail of the setbacks on its way, from
which the report of a failure is made; the result never depends on it. -/
namespace QueryDoc

/-- Something that did not work out while reading. -/
inductive Setback where
  /-- No terminal that was asked for stands before these remaining ones. -/
  | miss (rest : List Token)
  /-- A sequence was given up and its start taken up again. -/
  | gaveUp (start : List Token) (kind : Kind)
deriving DecidableEq, Repr

/-- What a rule gives: a result with the remaining terminals, or the kind that
it missed, and the setbacks on the way, in order. -/
structure Outcome (α : Type) where
  result : Except Kind (α × List Token)
  trail : List Setback

/-- A rule of the grammar. -/
def Rule (α : Type) := List Token → Outcome α

namespace Rule

variable {α β : Type}

/-- Reads nothing. -/
def pure (a : α) : Rule α := fun input => ⟨.ok (a, input), []⟩

/-- Reads by one rule and then by another. -/
def bind (r : Rule α) (f : α → Rule β) : Rule β := fun input =>
  let first := r input
  match first.result with
  | .error kind => ⟨.error kind, first.trail⟩
  | .ok (a, rest) =>
    let second := f a rest
    ⟨second.result, first.trail ++ second.trail⟩

instance : Monad Rule where
  pure := Rule.pure
  bind := Rule.bind

/-- Gives up at once, without asking for a terminal. -/
def fail (kind : Kind) : Rule α := fun _ => ⟨.error kind, []⟩

/-- Reads one terminal that a test accepts. -/
def terminal (kind : Kind) (accept : Token → Option α) : Rule α := fun input =>
  match input with
  | [] => ⟨.error kind, [.miss []]⟩
  | t :: rest =>
    match accept t with
    | some a => ⟨.ok (a, rest), []⟩
    | none => ⟨.error kind, [.miss (t :: rest)]⟩

/-- Reads a given terminal. -/
def token (t : Token) (kind : Kind) : Rule Unit :=
  terminal kind fun t' => if t' = t then some () else none

/-- Reads a name that is a given word. -/
def keyword (word : String) (kind : Kind) : Rule Unit := token (.name word) kind

/-- Reads the end of the terminals. -/
def finish (kind : Kind) : Rule Unit := fun input =>
  match input with
  | [] => ⟨.ok ((), []), []⟩
  | t :: rest => ⟨.error kind, [.miss (t :: rest)]⟩

/-- Reads by the second rule where the first one fails. -/
def orElse (r s : Rule α) : Rule α := fun input =>
  let first := r input
  match first.result with
  | .ok _ => first
  | .error _ =>
    let second := s input
    ⟨second.result, first.trail ++ second.trail⟩

/-- Reports a failure under another kind. -/
def expecting (kind : Kind) (r : Rule α) : Rule α := fun input =>
  let first := r input
  match first.result with
  | .ok _ => first
  | .error _ => ⟨.error kind, first.trail⟩

/-- Reads a sequence as a whole: where it fails, that is a setback of its own. -/
def attempt (r : Rule α) : Rule α := fun input =>
  let first := r input
  match first.result with
  | .ok _ => first
  | .error kind => ⟨.error kind, first.trail ++ [.gaveUp input kind]⟩

/-- Reads by a rule if it succeeds, and nothing otherwise. -/
def optional (r : Rule α) : Rule (Option α) :=
  orElse (attempt r >>= fun a => pure (some a)) (pure none)

/-- Reads a given terminal if it comes next, and tells whether it did. -/
def takes (t : Token) (kind : Kind) : Rule Bool :=
  orElse (token t kind >>= fun _ => pure true) (pure false)

/-- Reads by a rule as often as it succeeds. A rule that would succeed without
reading anything ends the repetition. -/
def many (r : Rule α) : Rule (List α) := fun input =>
  let first := attempt r input
  match first.result with
  | .error _ => ⟨.ok ([], input), first.trail⟩
  | .ok (a, rest) =>
    if rest.length < input.length then
      let others := many r rest
      match others.result with
      | .ok (as, rest) => ⟨.ok (a :: as, rest), first.trail ++ others.trail⟩
      | .error kind => ⟨.error kind, first.trail ++ others.trail⟩
    else ⟨.ok ([a], rest), first.trail⟩
termination_by input => input.length

/-- Reads by a rule at least once. -/
def many1 (r : Rule α) : Rule (List α) := do
  let a ← attempt r
  let as ← many r
  return a :: as

/-- Reads nothing, where a rule fails; where it succeeds, that is a miss. -/
def notFollowedBy (kind : Kind) (r : Rule α) : Rule Unit := fun input =>
  let first := r input
  match first.result with
  | .ok _ => ⟨.error kind, first.trail ++ [.miss input]⟩
  | .error _ => ⟨.ok ((), input), first.trail⟩

/-- A rule that is only called on less than some given input, as when a
construct is read inside of itself. -/
def within (input : List Token) (kind : Kind)
    (r : (rest : List Token) → rest.length < input.length → Outcome α) : Rule α := fun rest =>
  if h : rest.length < input.length then r rest h else fail kind rest

end Rule
end QueryDoc
