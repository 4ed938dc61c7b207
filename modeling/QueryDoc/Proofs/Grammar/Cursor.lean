import QueryDoc.Proofs.Grammar.Progress
import QueryDoc.Proofs.Lexical.Cut

/-! What actions do with a cursor. After a failure the cursor goes back to where it was, so that an
action does from its place what a rule does with the terminals from there on. How an action comes
to an end depends only on how its parts do. -/
namespace QueryDoc
open Lexer

namespace Lexer

/-! ## Places in a text -/

theorem terminalsAt_begin (b : Bool) (cs : List Char) :
    terminalsAt (begin b cs) = (lexFrom b cs).map (·.token) := by
  have hsame : lexFrom true (begin b cs) = lexFrom b cs := lexFrom_congr rfl
  rw [terminalsAt, hsame]

theorem terminalsAt_scan {place rest : List Char} {t : Token} (h : scan place = some (t, rest)) :
    terminalsAt place = t :: terminalsAt (begin t.isSigil rest) := by
  have hscan : scan (begin true place) = some (t, rest) := h
  rw [terminalsAt_begin, terminalsAt, lexFrom_some hscan]
  rfl

theorem terminalsAt_nil : terminalsAt [] = [] := by
  rw [terminalsAt, lexFrom_nil rfl]
  rfl

/-- Where no terminal starts the text is at its end, or what stands there is none. -/
theorem terminalsAt_none {place : List Char} (h : scan place = none) :
    terminalsAt place = [] ∧ place = [] ∨ terminalsAt place = [.invalid] ∧ place ≠ [] := by
  have hscan : scan (begin true place) = none := h
  cases place with
  | nil => exact .inl ⟨terminalsAt_nil, rfl⟩
  | cons c cs =>
    rw [terminalsAt, lexFrom_none rfl hscan]
    exact .inr ⟨rfl, List.cons_ne_nil c cs⟩

/-- A place is reached from another one over whole terminals and the ignored input after them. -/
inductive Ahead : List Char → List Char → Prop where
  | here (place : List Char) : Ahead place place
  | past {place rest later : List Char} {t : Token} :
      scan place = some (t, rest) → Ahead (begin t.isSigil rest) later → Ahead place later

namespace Ahead
variable {place place' later : List Char}

theorem trans (h : Ahead place place') (h' : Ahead place' later) : Ahead place later := by
  induction h with
  | here => exact h'
  | past hscan _ ih => exact .past hscan (ih h')

theorem suffix (h : Ahead place later) : later <:+ place := by
  induction h with
  | here place => exact List.suffix_refl place
  | @past place rest later t hscan _ ih =>
    obtain ⟨word, rfl, -⟩ := scan_spelled hscan
    exact (ih.trans (begin_suffix t.isSigil rest)).trans (List.suffix_append word rest)

/-- Nothing was read, or less text and fewer terminals are left. -/
theorem eq_or_less (h : Ahead place later) :
    later = place ∨
      later.length < place.length ∧ (terminalsAt later).length < (terminalsAt place).length := by
  induction h with
  | here => exact .inl rfl
  | @past place rest later t hscan _ ih =>
    have hrest := begin_length_le t.isSigil rest
    have hscanned := scan_length hscan
    rw [terminalsAt_scan hscan, List.length_cons]
    rcases ih with rfl | ⟨hless, hfewer⟩
    · exact .inr ⟨by omega, by omega⟩
    · exact .inr ⟨by omega, by omega⟩

/-- Fewer terminals are left where less text is left, and only there. -/
theorem fewer_iff (h : Ahead place later) :
    (terminalsAt later).length < (terminalsAt place).length ↔ later.length < place.length := by
  rcases h.eq_or_less with rfl | ⟨hless, hfewer⟩
  · simp only [Nat.lt_irrefl]
  · exact ⟨fun _ => hless, fun _ => hfewer⟩

theorem eq_of_terminals (h : Ahead place later) (hsame : terminalsAt later = terminalsAt place) :
    later = place := by
  rcases h.eq_or_less with heq | ⟨-, hfewer⟩
  · exact heq
  · exact absurd hfewer (hsame ▸ Nat.lt_irrefl _)

end Ahead
end Lexer

namespace Action
variable {α β : Type} {r s : Action α} {c c' : Cursor} {a : α} {kind : Kind}

/-! ## How actions end -/

theorem ends (r : Action α) (c : Cursor) :
    r c = none ∨ (∃ a c', r c = some (.ok a, c')) ∨ ∃ kind c', r c = some (.error kind, c') := by
  rcases h : r c with _ | ⟨_ | _, _⟩
  · exact .inl rfl
  · exact .inr (.inr ⟨_, _, rfl⟩)
  · exact .inr (.inl ⟨_, _, rfl⟩)

section Equations
variable {f : α → Action β}

theorem bind_none (h : r c = none) : (r >>= f) c = none := by
  show Action.bind r f c = _
  simp only [Action.bind, h]

theorem bind_ok (h : r c = some (.ok a, c')) : (r >>= f) c = f a c' := by
  show Action.bind r f c = _
  simp only [Action.bind, h]

theorem bind_error (h : r c = some (.error kind, c')) :
    (r >>= f) c = some (.error kind, c') := by
  show Action.bind r f c = _
  simp only [Action.bind, h]

theorem orElse_none (h : r c = none) : orElse r s c = none := by
  simp only [orElse, h]

theorem orElse_ok (h : r c = some (.ok a, c')) : orElse r s c = some (.ok a, c') := by
  simp only [orElse, h]

theorem orElse_error (h : r c = some (.error kind, c')) : orElse r s c = s c' := by
  simp only [orElse, h]

theorem attempt_none (h : r c = none) : attempt r c = none := by
  simp only [attempt, h]

theorem attempt_ok (h : r c = some (.ok a, c')) : attempt r c = some (.ok a, c') := by
  simp only [attempt, h]

theorem attempt_error (h : r c = some (.error kind, c')) :
    attempt r c = some (.error kind, (c'.goTo c.place).giveUp kind) := by
  simp only [attempt, h]

theorem optional_error (h : r c = some (.error kind, c')) :
    Engine.optional r c = some (.ok none, (c'.goTo c.place).giveUp kind) :=
  orElse_error (bind_error (attempt_error h))

/-- To go back before a name that is not the given word is not to ask for any other name. -/
theorem keyword_eq (word : String) (kind : Kind) :
    keyword word kind = Engine.token (.name word) kind := by
  funext c
  show keyword word kind c = terminal kind _ c
  simp only [keyword, terminal]
  cases scan c.place with
  | none => rfl
  | some p =>
    obtain ⟨t, rest⟩ := p
    cases t with
    | name text =>
      by_cases hword : text = word
      · simp only [hword, if_true]
      · simp only [Token.name.injEq, hword, if_false]
        rfl
    | _ => rfl

theorem many_none (h : r c = none) : many r c = none := by
  rw [many, attempt_none h]

theorem many_error (h : r c = some (.error kind, c')) :
    many r c = some (.ok [], (c'.goTo c.place).giveUp kind) := by
  rw [many, attempt_error h]

theorem many_stuck (h : r c = some (.ok a, c')) (hstuck : ¬ c'.place.length < c.place.length) :
    many r c = none := by
  rw [many, attempt_ok h]
  exact if_neg hstuck

theorem many_ok (h : r c = some (.ok a, c')) (hless : c'.place.length < c.place.length) :
    many r c = (many r >>= fun as => Pure.pure (a :: as)) c' := by
  rw [many, attempt_ok h]
  simp only [hless, if_true]
  rcases ends (many r) c' with hmany | ⟨as, c'', hmany⟩ | ⟨k, c'', hmany⟩
  · rw [bind_none hmany, hmany]
  · rw [bind_ok hmany, hmany]
    rfl
  · rw [bind_error hmany, hmany]

theorem notFollowedBy_none {kind' : Kind} (h : r c = none) : notFollowedBy kind' r c = none := by
  simp only [notFollowedBy, h]

theorem notFollowedBy_ok {kind' : Kind} (h : r c = some (.ok a, c')) :
    notFollowedBy kind' r c = some (.error kind', (c'.goTo c.place).miss) := by
  simp only [notFollowedBy, h]

theorem notFollowedBy_error {kind' : Kind} (h : r c = some (.error kind, c')) :
    notFollowedBy kind' r c = some (.ok (), c'.goTo c.place) := by
  simp only [notFollowedBy, h]

end Equations

/-! ## Going back -/

/-- The ways to go on after an action that has failed, wherever that leaves the cursor: each takes
the cursor back to where it was. -/
structure Rewinds (r : Action α) (c : Cursor) : Prop where
  attempt : ∃ kind c', attempt r c = some (.error kind, c') ∧ c'.place = c.place
  optional : ∃ c', Engine.optional r c = some (.ok none, c') ∧ c'.place = c.place
  many : ∃ c', many r c = some (.ok [], c') ∧ c'.place = c.place
  many1 : ∃ kind c', Engine.many1 r c = some (.error kind, c') ∧ c'.place = c.place
  notFollowedBy : ∀ kind, ∃ c', notFollowedBy kind r c = some (.ok (), c') ∧ c'.place = c.place

theorem rewinds_of_error (h : r c = some (.error kind, c')) : Rewinds r c where
  attempt := ⟨kind, _, attempt_error h, rfl⟩
  optional := ⟨_, optional_error h, rfl⟩
  many := ⟨_, many_error h, rfl⟩
  many1 := ⟨kind, _, bind_error (attempt_error h), rfl⟩
  notFollowedBy _ := ⟨_, notFollowedBy_error h, rfl⟩

/-- Looking ahead never moves the cursor. -/
theorem notFollowedBy_place {result : Except Kind Unit}
    (h : notFollowedBy kind r c = some (result, c')) : c'.place = c.place := by
  rcases ends r c with hr | ⟨a, c₁, hr⟩ | ⟨k, c₁, hr⟩
  · rw [notFollowedBy_none hr] at h
    cases h
  · rw [notFollowedBy_ok hr] at h
    cases h
    rfl
  · rw [notFollowedBy_error hr] at h
    cases h
    rfl

/-- Where the action fails, it leaves the cursor where it found it. -/
def Restores (r : Action α) : Prop :=
  ∀ ⦃c : Cursor⦄ ⦃kind : Kind⦄ ⦃c' : Cursor⦄, r c = some (.error kind, c') → c'.place = c.place

theorem restores_terminal (kind : Kind) (accept : Token → Option α) :
    Restores (terminal kind accept) := by
  intro c k c' h
  unfold terminal at h
  split at h
  · cases h
    rfl
  · split at h
    · cases h
    · cases h
      rfl

theorem restores_keyword (word : String) (kind : Kind) : Restores (keyword word kind) := by
  rw [keyword_eq]
  exact restores_terminal kind _

theorem restores_attempt (r : Action α) : Restores (attempt r) := by
  intro c k c' h
  rcases ends r c with hr | ⟨a, c₁, hr⟩ | ⟨kind, c₁, hr⟩
  · rw [attempt_none hr] at h
    cases h
  · rw [attempt_ok hr] at h
    cases h
  · rw [attempt_error hr] at h
    cases h
    rfl

theorem Restores.orElse (hr : Restores r) (hs : Restores s) : Restores (orElse r s) := by
  intro c k c' h
  rcases ends r c with hfirst | ⟨a, c₁, hfirst⟩ | ⟨kind, c₁, hfirst⟩
  · rw [orElse_none hfirst] at h
    cases h
  · rw [orElse_ok hfirst] at h
    cases h
  · rw [orElse_error hfirst] at h
    exact (hs h).trans (hr hfirst)

/-- An action after which nothing can fail. -/
theorem Restores.map (hr : Restores r) (f : α → β) :
    Restores (r >>= fun a => Pure.pure (f a)) := by
  intro c k c' h
  rcases ends r c with hfirst | ⟨a, c₁, hfirst⟩ | ⟨kind, c₁, hfirst⟩
  · rw [bind_none hfirst] at h
    cases h
  · rw [bind_ok hfirst] at h
    cases h
  · rw [bind_error hfirst] at h
    cases h
    exact hr hfirst

/-! ## Repetitions -/

/-- The parts of a repetition, each of which leaves less of the text, up to where an attempt fails
and goes back. -/
inductive Repeats (r : Action α) : Cursor → List α → Cursor → Prop where
  | stop {c c' : Cursor} {kind : Kind} :
      attempt r c = some (.error kind, c') → c'.place = c.place → Repeats r c [] c'
  | more {c c₁ c₂ : Cursor} {a : α} {as : List α} :
      attempt r c = some (.ok a, c₁) → c₁.place.length < c.place.length → Repeats r c₁ as c₂ →
      Repeats r c (a :: as) c₂

/-- A repetition that comes to an end has not failed, and each of its parts has read something. -/
theorem repeats_of_many {result : Except Kind (List α)} (h : many r c = some (result, c')) :
    ∃ as, result = .ok as ∧ Repeats r c as c' := by
  induction hn : c.place.length using Nat.strongRecOn generalizing c c' result with
  | _ n ih =>
    rcases ends r c with hr | ⟨a, c₁, hr⟩ | ⟨kind, c₁, hr⟩
    · rw [many_none hr] at h
      cases h
    · by_cases hless : c₁.place.length < c.place.length
      · rw [many_ok hr hless] at h
        rcases hmany : many r c₁ with _ | ⟨others, c₂⟩
        · rw [bind_none hmany] at h
          cases h
        · obtain ⟨as, rfl, hrest⟩ := ih _ (hn ▸ hless) hmany rfl
          rw [bind_ok hmany] at h
          cases h
          exact ⟨a :: as, rfl, .more (attempt_ok hr) hless hrest⟩
      · rw [many_stuck hr hless] at h
        cases h
    · rw [many_error hr] at h
      cases h
      exact ⟨[], rfl, .stop (attempt_error hr) rfl⟩

/-- A first part and then the others; if there is none, the cursor is where it was. -/
theorem repeats_of_many1 {result : Except Kind (List α)}
    (hmore : ∀ a c₁, r c = some (.ok a, c₁) → c₁.place.length < c.place.length)
    (h : Engine.many1 r c = some (result, c')) :
    (∃ as, result = .ok as ∧ as ≠ [] ∧ Repeats r c as c') ∨
      ∃ kind, result = .error kind ∧ c'.place = c.place := by
  unfold Engine.many1 at h
  rcases ends r c with hr | ⟨a, c₁, hr⟩ | ⟨kind, c₁, hr⟩
  · cases (bind_none (attempt_none hr)).symm.trans h
  · replace h := (bind_ok (attempt_ok hr)).symm.trans h
    rcases hmany : many r c₁ with _ | ⟨others, c₂⟩
    · cases (bind_none hmany).symm.trans h
    · obtain ⟨as, rfl, hrest⟩ := repeats_of_many hmany
      cases (bind_ok hmany).symm.trans h
      exact .inl ⟨a :: as, rfl, List.cons_ne_nil a as,
        .more (attempt_ok hr) (hmore a c₁ hr) hrest⟩
  · cases (bind_error (attempt_error hr)).symm.trans h
    exact .inr ⟨kind, rfl, rfl⟩

/-! ## Actions that do more often come to an end -/

/-- Where the first action comes to an end, so does the second one, in the same way. -/
def Le (r s : Action α) : Prop :=
  ∀ ⦃c : Cursor⦄ ⦃o : Except Kind α × Cursor⦄, r c = some o → s c = some o

namespace Le
variable {r' s' : Action α}

theorem refl (r : Action α) : Le r r := fun _ _ h => h

theorem bind {f g : α → Action β} (h : Le r s) (hf : ∀ a, Le (f a) (g a)) :
    Le (r >>= f) (s >>= g) := by
  intro c o ho
  rcases ends r c with hr | ⟨a, c₁, hr⟩ | ⟨kind, c₁, hr⟩
  · rw [bind_none hr] at ho
    cases ho
  · rw [bind_ok hr] at ho
    rw [bind_ok (h hr)]
    exact hf a ho
  · rw [bind_error hr] at ho
    rwa [bind_error (h hr)]

theorem orElse (h : Le r s) (h' : Le r' s') : Le (orElse r r') (orElse s s') := by
  intro c o ho
  rcases ends r c with hr | ⟨a, c₁, hr⟩ | ⟨kind, c₁, hr⟩
  · rw [orElse_none hr] at ho
    cases ho
  · rw [orElse_ok hr] at ho
    rwa [orElse_ok (h hr)]
  · rw [orElse_error hr] at ho
    rw [orElse_error (h hr)]
    exact h' ho

theorem expecting (kind : Kind) (h : Le r s) : Le (expecting kind r) (expecting kind s) := by
  intro c o ho
  cases hr : r c with
  | none => simp only [Action.expecting, hr, reduceCtorEq] at ho
  | some o' => simpa only [Action.expecting, hr, h hr] using ho

theorem attempt (h : Le r s) : Le (attempt r) (attempt s) := by
  intro c o ho
  cases hr : r c with
  | none => simp only [Action.attempt, hr, reduceCtorEq] at ho
  | some o' => simpa only [Action.attempt, hr, h hr] using ho

theorem many (h : Le r s) : Le (many r) (many s) := by
  intro c
  induction hn : c.place.length using Nat.strongRecOn generalizing c with
  | _ n ih =>
    intro o ho
    rcases ends r c with hr | ⟨a, c₁, hr⟩ | ⟨kind, c₁, hr⟩
    · rw [many_none hr] at ho
      cases ho
    · by_cases hless : c₁.place.length < c.place.length
      · rw [many_ok hr hless] at ho
        rw [many_ok (h hr) hless]
        rcases hmany : Action.many r c₁ with _ | ⟨others, c₂⟩
        · rw [bind_none hmany] at ho
          cases ho
        · have hmany' := ih _ (hn ▸ hless) rfl hmany
          cases others with
          | error k =>
            rw [bind_error hmany] at ho
            rwa [bind_error hmany']
          | ok as =>
            rw [bind_ok hmany] at ho
            rwa [bind_ok hmany']
      · rw [many_stuck hr hless] at ho
        cases ho
    · rw [many_error hr] at ho
      rwa [many_error (h hr)]

theorem optional (h : Le r s) : Le (Engine.optional r) (Engine.optional s) :=
  .orElse (.bind h.attempt fun _ => .refl _) (.refl _)

theorem many1 (h : Le r s) : Le (Engine.many1 r) (Engine.many1 s) :=
  .bind h.attempt fun _ => .bind h.many fun _ => .refl _

theorem group (kind : Kind) (h : Le r s) : Le (Engine.group kind r) (Engine.group kind s) :=
  .bind (.optional (.bind (.refl _) fun _ => .bind h.many1 fun _ => .refl _)) fun _ => .refl _

end Le

theorem Restores.of_le (hs : Restores s) (h : Le r s) : Restores r := fun _ _ _ hr => hs (h hr)

/-! ## Actions and rules -/

/-- From a place of the text, an action does what a rule does with the terminals from there on: they
have the same result or miss the same kind, with the same setbacks on the way. Where they succeed,
the rule leaves the terminals from where the action leaves the cursor. -/
def AgreesAt (r : Action α) (rule : Rule α) (place : List Char) : Prop :=
  ∀ before : List Setback,
    (∃ a later trail, Ahead place later ∧
      r ⟨place, before⟩ = some (.ok a, ⟨later, before ++ trail⟩) ∧
      rule (terminalsAt place) = ⟨.ok (a, terminalsAt later), trail⟩) ∨
    ∃ kind later trail, Ahead place later ∧
      r ⟨place, before⟩ = some (.error kind, ⟨later, before ++ trail⟩) ∧
      rule (terminalsAt place) = ⟨.error kind, trail⟩

namespace AgreesAt
variable {rule rule' : Rule α} {place : List Char}

theorem pure (a : α) : AgreesAt (Pure.pure a) (Pure.pure a : Rule α) place := by
  intro before
  refine .inl ⟨a, place, [], .here _, ?_, rfl⟩
  rw [List.append_nil]
  rfl

theorem fail (kind : Kind) : AgreesAt (Action.fail kind) (Rule.fail kind : Rule α) place := by
  intro before
  refine .inr ⟨kind, place, [], .here _, ?_, rfl⟩
  rw [List.append_nil]
  rfl

theorem bind {f : α → Action β} {g : α → Rule β} (h : AgreesAt r rule place)
    (hf : ∀ a later, Ahead place later →
      Rule.Reads rule (terminalsAt place) a (terminalsAt later) → AgreesAt (f a) (g a) later) :
    AgreesAt (r >>= f) (rule >>= g) place := by
  intro before
  have hrule : (rule >>= g) (terminalsAt place) = Rule.bind rule g (terminalsAt place) := rfl
  rw [hrule]
  rcases h before with ⟨a, later, trail, hahead, hr, hread⟩ |
    ⟨kind, later, trail, hahead, hr, hread⟩
  · rw [bind_ok hr]
    simp only [Rule.bind, hread]
    rcases hf a later hahead (congrArg Outcome.result hread) (before ++ trail) with
      ⟨b, last, more, hlater, hb, hread'⟩ | ⟨kind, last, more, hlater, hb, hread'⟩
    · refine .inl ⟨b, last, trail ++ more, hahead.trans hlater, ?_, ?_⟩
      · rw [hb, List.append_assoc]
      · rw [hread']
    · refine .inr ⟨kind, last, trail ++ more, hahead.trans hlater, ?_, ?_⟩
      · rw [hb, List.append_assoc]
      · rw [hread']
  · rw [bind_error hr]
    simp only [Rule.bind, hread]
    exact .inr ⟨kind, later, trail, hahead, rfl, rfl⟩

theorem map (h : AgreesAt r rule place) (f : α → β) :
    AgreesAt (r >>= fun a => Pure.pure (f a)) (rule >>= fun a => Pure.pure (f a)) place :=
  h.bind fun _ _ _ _ => .pure _

/-- The second alternative starts where the first one did, if that goes back by itself. -/
theorem orElse (h : AgreesAt r rule place) (hr : Restores r) (hs : AgreesAt s rule' place) :
    AgreesAt (orElse r s) (Rule.orElse rule rule') place := by
  intro before
  rcases h before with ⟨a, later, trail, hahead, hfirst, hread⟩ |
    ⟨kind, later, trail, hahead, hfirst, hread⟩
  · refine .inl ⟨a, later, trail, hahead, orElse_ok hfirst, ?_⟩
    simp only [Rule.orElse, hread]
  · obtain rfl : later = place := hr hfirst
    rw [orElse_error hfirst]
    simp only [Rule.orElse, hread]
    rcases hs (before ++ trail) with
      ⟨b, last, more, hlater, hb, hread'⟩ | ⟨kind', last, more, hlater, hb, hread'⟩
    · refine .inl ⟨b, last, trail ++ more, hlater, ?_, ?_⟩
      · rw [hb, List.append_assoc]
      · rw [hread']
    · refine .inr ⟨kind', last, trail ++ more, hlater, ?_, ?_⟩
      · rw [hb, List.append_assoc]
      · rw [hread']

theorem expecting (kind : Kind) (h : AgreesAt r rule place) :
    AgreesAt (expecting kind r) (Rule.expecting kind rule) place := by
  intro before
  rcases h before with ⟨a, later, trail, hahead, hr, hread⟩ | ⟨k, later, trail, hahead, hr, hread⟩
  · refine .inl ⟨a, later, trail, hahead, ?_, ?_⟩
    · simp only [Action.expecting, hr]
    · simp only [Rule.expecting, hread]
  · refine .inr ⟨kind, later, trail, hahead, ?_, ?_⟩
    · simp only [Action.expecting, hr]
    · simp only [Rule.expecting, hread]

theorem attempt (h : AgreesAt r rule place) :
    AgreesAt (attempt r) (Rule.attempt rule) place := by
  intro before
  rcases h before with ⟨a, later, trail, hahead, hr, hread⟩ |
    ⟨kind, later, trail, hahead, hr, hread⟩
  · refine .inl ⟨a, later, trail, hahead, attempt_ok hr, ?_⟩
    simp only [Rule.attempt, hread]
  · refine .inr ⟨kind, place, trail ++ [.gaveUp (terminalsAt place) kind], .here _, ?_, ?_⟩
    · rw [attempt_error hr, ← List.append_assoc]
      rfl
    · simp only [Rule.attempt, hread]

/-- Where the rule takes up terminals, the action has read something of the text. -/
theorem reads_more {before : List Setback} (h : AgreesAt r rule place) (hrule : rule.Productive)
    (hr : r ⟨place, before⟩ = some (.ok a, c')) :
    c'.place <:+ place ∧ c'.place.length < place.length := by
  rcases h before with ⟨b, later, trail, hahead, hr', hread⟩ | ⟨kind, later, trail, -, hr', -⟩
  · cases hr.symm.trans hr'
    exact ⟨hahead.suffix, hahead.fewer_iff.mp (hrule (congrArg Outcome.result hread))⟩
  · cases hr.symm.trans hr'

/-- Such an action comes to an end. -/
theorem ends (h : AgreesAt r rule place) (before : List Setback) :
    ∃ o, r ⟨place, before⟩ = some o := by
  rcases h before with ⟨_, _, _, -, hr, -⟩ | ⟨_, _, _, -, hr, -⟩
  · exact ⟨_, hr⟩
  · exact ⟨_, hr⟩

theorem optional (h : AgreesAt r rule place) :
    AgreesAt (Engine.optional r) (Rule.optional rule) place :=
  .orElse (h.attempt.map some) ((restores_attempt r).map some) (.pure none)

/-- Both take the terminal that stands first, if there is one and it is accepted. -/
theorem terminal {accept : Token → Option α} (kind : Kind) (haccept : accept .invalid = none) :
    AgreesAt (terminal kind accept) (Rule.terminal kind accept) place := by
  intro before
  cases hscan : scan place with
  | none =>
    refine .inr ⟨kind, place, [.miss (terminalsAt place)], .here _, ?_, ?_⟩
    · simp only [Action.terminal, hscan]
      rfl
    · rcases terminalsAt_none hscan with ⟨hend, -⟩ | ⟨hinvalid, -⟩
      · rw [hend]
        rfl
      · rw [hinvalid]
        simp only [Rule.terminal, haccept]
  | some p =>
    obtain ⟨t, rest⟩ := p
    have hfirst := terminalsAt_scan hscan
    cases ht : accept t with
    | none =>
      refine .inr ⟨kind, place, [.miss (terminalsAt place)], .here _, ?_, ?_⟩
      · simp only [Action.terminal, hscan, ht]
        rfl
      · rw [hfirst]
        simp only [Rule.terminal, ht]
    | some a =>
      refine .inl ⟨a, begin t.isSigil rest, [], .past hscan (.here _), ?_, ?_⟩
      · simp only [Action.terminal, hscan, ht, List.append_nil]
        rfl
      · rw [hfirst]
        simp only [Rule.terminal, ht]

theorem token (t : Token) (kind : Kind) (ht : t ≠ .invalid) :
    AgreesAt (Engine.token t kind) (Rule.token t kind) place :=
  terminal kind (if_neg ht.symm)

theorem takes (t : Token) (kind : Kind) (ht : t ≠ .invalid) :
    AgreesAt (Engine.takes t kind) (Rule.takes t kind) place :=
  .orElse ((token t kind ht).map fun _ => true) ((restores_terminal _ _).map fun _ => true)
    (.pure false)

theorem keyword (word : String) (kind : Kind) :
    AgreesAt (keyword word kind) (Rule.keyword word kind) place := by
  rw [keyword_eq]
  exact token _ kind Token.noConfusion

theorem finish (kind : Kind) : AgreesAt (finish kind) (Rule.finish kind) place := by
  intro before
  cases place with
  | nil =>
    refine .inl ⟨(), [], [], .here _, ?_, ?_⟩
    · rw [List.append_nil]
      rfl
    · rw [terminalsAt_nil]
      rfl
  | cons x xs =>
    refine .inr ⟨kind, x :: xs, [.miss (terminalsAt (x :: xs))], .here _, rfl, ?_⟩
    cases hscan : scan (x :: xs) with
    | none =>
      rcases terminalsAt_none hscan with ⟨-, hend⟩ | ⟨hinvalid, -⟩
      · cases hend
      · rw [hinvalid]
        rfl
    | some p =>
      rw [terminalsAt_scan hscan]
      rfl

theorem notFollowedBy (kind : Kind) (h : AgreesAt r rule place) :
    AgreesAt (notFollowedBy kind r) (Rule.notFollowedBy kind rule) place := by
  intro before
  rcases h before with ⟨a, later, trail, -, hr, hread⟩ | ⟨k, later, trail, -, hr, hread⟩
  · refine .inr ⟨kind, place, trail ++ [.miss (terminalsAt place)], .here _, ?_, ?_⟩
    · rw [notFollowedBy_ok hr, ← List.append_assoc]
      rfl
    · simp only [Rule.notFollowedBy, hread]
  · refine .inl ⟨(), place, trail, .here _, notFollowedBy_error hr, ?_⟩
    simp only [Rule.notFollowedBy, hread]

/-- The rule would also end a repetition of which a part reads nothing; the action has no such
guard, and needs none where each part takes up terminals. -/
theorem many (hrule : rule.Productive) (h : ∀ ⦃later⦄, later <:+ place → AgreesAt r rule later) :
    AgreesAt (many r) (Rule.many rule) place := by
  induction hn : place.length using Nat.strongRecOn generalizing place with
  | _ n ih =>
    intro before
    rw [Rule.many]
    rcases h (List.suffix_refl place) before with ⟨a, later, trail, hahead, hr, hread⟩ |
      ⟨kind, later, trail, hahead, hr, hread⟩
    · have hfewer : (terminalsAt later).length < (terminalsAt place).length :=
        hrule (congrArg Outcome.result hread)
      have hless := hahead.fewer_iff.mp hfewer
      rw [many_ok hr hless]
      simp only [Rule.attempt, hread, hfewer, if_true]
      rcases ih _ (hn ▸ hless) (fun last hlast => h (hlast.trans hahead.suffix)) rfl
          (before ++ trail) with
        ⟨as, last, more, hlater, hmany, hreads⟩ | ⟨kind, last, more, hlater, hmany, hreads⟩
      · refine .inl ⟨a :: as, last, trail ++ more, hahead.trans hlater, ?_, ?_⟩
        · rw [bind_ok hmany, List.append_assoc]
          rfl
        · simp only [hreads]
      · refine .inr ⟨kind, last, trail ++ more, hahead.trans hlater, ?_, ?_⟩
        · rw [bind_error hmany, List.append_assoc]
        · simp only [hreads]
    · refine .inl ⟨[], place, trail ++ [.gaveUp (terminalsAt place) kind], .here _, ?_, ?_⟩
      · rw [many_error hr, ← List.append_assoc]
        rfl
      · simp only [Rule.attempt, hread]

theorem many1 (hrule : rule.Productive) (h : ∀ ⦃later⦄, later <:+ place → AgreesAt r rule later) :
    AgreesAt (Engine.many1 r) (Rule.many1 rule) place :=
  (h (List.suffix_refl place)).attempt.bind fun _ _ hahead _ =>
    (AgreesAt.many hrule fun _ hlater => h (hlater.trans hahead.suffix)).map _

end AgreesAt

/-- An action and a rule agree wherever less of a text is left than from some place on. -/
def AgreesPast (place : List Char) (r : Action α) (rule : Rule α) : Prop :=
  ∀ ⦃later : List Char⦄, later <:+ place → later.length < place.length → AgreesAt r rule later

/-- After a part that takes up terminals, it is enough to agree where less of the text is left. -/
theorem AgreesAt.lead {rule : Rule α} {f : α → Action β} {g : α → Rule β} {place : List Char}
    (h : AgreesAt r rule place) (hrule : rule.Productive)
    (hf : ∀ a, AgreesPast place (f a) (g a)) : AgreesAt (r >>= f) (rule >>= g) place :=
  h.bind fun a _ hahead hread => hf a hahead.suffix (hahead.fewer_iff.mp (hrule hread))

namespace AgreesPast
variable {rule : Rule α} {place : List Char}

theorem at_suffix {last later : List Char} (h : AgreesPast place r rule) (hlast : last <:+ later)
    (hlater : later <:+ place) (hless : later.length < place.length) : AgreesAt r rule last :=
  h (hlast.trans hlater) (Nat.lt_of_le_of_lt hlast.length_le hless)

theorem bind {f : α → Action β} {g : α → Rule β} (h : AgreesPast place r rule)
    (hf : ∀ a, AgreesPast place (f a) (g a)) : AgreesPast place (r >>= f) (rule >>= g) :=
  fun _ hlater hless => (h hlater hless).bind fun a _ hahead _ =>
    (hf a).at_suffix hahead.suffix hlater hless

theorem pure (a : α) : AgreesPast place (Pure.pure a) (Pure.pure a : Rule α) := fun _ _ _ => .pure a

theorem token (t : Token) (kind : Kind) (ht : t ≠ .invalid) :
    AgreesPast place (Engine.token t kind) (Rule.token t kind) := fun _ _ _ => .token t kind ht

theorem keyword (word : String) (kind : Kind) :
    AgreesPast place (keyword word kind) (Rule.keyword word kind) :=
  fun _ _ _ => .keyword word kind

theorem notFollowedBy (kind : Kind) (h : AgreesPast place r rule) :
    AgreesPast place (notFollowedBy kind r) (Rule.notFollowedBy kind rule) :=
  fun _ hlater hless => (h hlater hless).notFollowedBy kind

theorem optional (h : AgreesPast place r rule) :
    AgreesPast place (Engine.optional r) (Rule.optional rule) :=
  fun _ hlater hless => (h hlater hless).optional

theorem many (hrule : rule.Productive) (h : AgreesPast place r rule) :
    AgreesPast place (many r) (Rule.many rule) :=
  fun _ hlater hless => .many hrule fun _ hlast => h.at_suffix hlast hlater hless

theorem many1 (hrule : rule.Productive) (h : AgreesPast place r rule) :
    AgreesPast place (Engine.many1 r) (Rule.many1 rule) :=
  fun _ hlater hless => .many1 hrule fun _ hlast => h.at_suffix hlast hlater hless

theorem group (kind : Kind) (hrule : rule.Productive) (h : AgreesPast place r rule) :
    AgreesPast place (Engine.group kind r) (Rule.group kind rule) := by
  refine .bind (AgreesPast.optional ?_) fun _ => .pure _
  refine .bind (.token _ kind Token.noConfusion) fun _ => .bind (h.many1 hrule) fun _ => ?_
  exact .bind (.token _ kind Token.noConfusion) fun _ => .pure _

end AgreesPast
end Action
end QueryDoc
