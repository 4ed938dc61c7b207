import QueryDoc.Proofs.Grammar.Cursor
import QueryDoc.Proofs.Grammar.Unfold

/-! Which productions a production calls, and where. Each call is where less of the text is left,
or at the same place, and then the production that is called is lower in a fixed order. So calls
are nested no deeper than the text is long, up to a factor, and reading comes to an end. -/
namespace QueryDoc
open Lexer QueryDoc.Action

namespace Symbol

/-- A production is its body around the productions themselves. -/
theorem rule_eq_body {α : Type} (s : Symbol α) : s.rule = s.body rule := by
  match α, s with
  | _, .value => exact Rule.value_eq
  | _, .typeRef => exact Rule.typeRef_eq
  | _, .selectionSet => exact Rule.selectionSet_eq
  | _, .document | _, .definition | _, .operationDefinition | _, .operationKind
  | _, .fragmentDefinition | _, .variableDefinition | _, .namedType | _, .selection | _, .field
  | _, .fragmentSpread | _, .inlineFragment | _, .directive | _, .argument | _, .name
  | _, .variable | _, .booleanValue | _, .intValue | _, .floatValue | _, .stringValue
  | _, .enumValue | _, .listValue | _, .objectValue | _, .objectField => rfl

/-! ## The order of productions -/

/-- Where a production may be called at the place where another one starts, it has a lower rank. -/
def rank : {α : Type} → Symbol α → Nat
  | _, .document => 3
  | _, .definition | _, .selection | _, .typeRef => 2
  | _, .operationDefinition | _, .variableDefinition | _, .namedType | _, .field | _, .argument
  | _, .value | _, .objectField => 1
  | _, _ => 0

theorem rank_le {α : Type} (s : Symbol α) : s.rank ≤ 3 := by
  cases s <;> decide

/-- A production at a place of a text comes before another one at another place: less of the text
is left, or the place is the same and the production has a lower rank. -/
def Lower {α β : Type} (q : Symbol β) (later : List Char) (s : Symbol α) (place : List Char) :
    Prop :=
  later <:+ place ∧ later.length < place.length ∨ later = place ∧ q.rank < s.rank

instance {α β : Type} (q : Symbol β) (later : List Char) (s : Symbol α) (place : List Char) :
    Decidable (q.Lower later s place) :=
  inferInstanceAs (Decidable (_ ∧ _ ∨ _))

/-- How deep calls may be nested, by the text that is left and the production. -/
def depth {α : Type} (s : Symbol α) (place : List Char) : Nat := 4 * place.length + s.rank

theorem Lower.depth_lt {α β : Type} {q : Symbol β} {later : List Char} {s : Symbol α}
    {place : List Char} (h : q.Lower later s place) : q.depth later < s.depth place := by
  have hq := q.rank_le
  unfold depth
  rcases h with ⟨-, hless⟩ | ⟨rfl, hrank⟩ <;> omega

/-! ## Productions that call nothing -/

section Leaves
variable {place : List Char}

theorem agrees_word {α : Type} (word : String) (kind : Kind) (a : α) :
    AgreesAt (Action.keyword word kind >>= fun _ => Pure.pure a)
      (Rule.keyword word kind >>= fun _ => Pure.pure a) place :=
  (AgreesAt.keyword word kind).map fun _ => a

theorem restores_word {α : Type} (word : String) (kind : Kind) (a : α) :
    Restores (Action.keyword word kind >>= fun _ => Pure.pure a) :=
  (restores_keyword word kind).map fun _ => a

theorem agrees_boolean : AgreesAt Engine.boolean Rule.boolean place :=
  .orElse (agrees_word _ _ _) (restores_word _ _ _) (agrees_word _ _ _)

theorem agrees_operationKind : AgreesAt Engine.operationKind Rule.operationKind place :=
  .orElse (agrees_word _ _ _) (restores_word _ _ _) <|
    .orElse (agrees_word _ _ _) (restores_word _ _ _) (agrees_word _ _ _)

theorem agrees_number : AgreesAt Engine.number Rule.number place := .terminal _ rfl

theorem agrees_int : AgreesAt Engine.int Rule.int place := by
  refine AgreesAt.attempt (agrees_number.bind fun v _ _ _ => ?_)
  cases v with
  | int text => exact .pure _
  | _ => exact .fail _

theorem agrees_float : AgreesAt Engine.float Rule.float place := by
  refine AgreesAt.attempt (agrees_number.bind fun v _ _ _ => ?_)
  cases v with
  | float text => exact .pure _
  | _ => exact .fail _

end Leaves

/-! ## Calls are lower -/

section Calls
variable {call call' : {β : Type} → Symbol β → Action β}

/-- The alternatives of a value that are tried without an attempt go back by themselves. -/
structure RestoresLiterals (call : {β : Type} → Symbol β → Action β) : Prop where
  boolean : Restores (call .booleanValue)
  string : Restores (call .stringValue)
  enum : Restores (call .enumValue)

/-- What a production reads depends on lower readings only. -/
theorem agrees_body {α : Type} {s : Symbol α} {place : List Char}
    (hliterals : RestoresLiterals call)
    (h : ∀ (β : Type) (q : Symbol β) (later : List Char),
      q.Lower later s place → AgreesAt (call q) q.rule later) :
    AgreesAt (s.body call) s.rule place := by
  have hless : ∀ {β : Type} (q : Symbol β), AgreesPast place (call q) q.rule :=
    fun q _ hlater hless => h _ q _ (.inl ⟨hlater, hless⟩)
  have hhere : ∀ {β : Type} (q : Symbol β), q.rank < s.rank → AgreesAt (call q) q.rule place :=
    fun q hlt => h _ q place (.inr ⟨rfl, hlt⟩)
  rw [rule_eq_body]
  -- Only the first part of a body is read at the place of the production. Each later part comes
  -- after a terminal or a production, which has taken up some of the input.
  match α, s with
  | _, .operationKind => exact agrees_operationKind
  | _, .name => exact .terminal _ rfl
  | _, .booleanValue => exact agrees_boolean
  | _, .intValue => exact agrees_int
  | _, .floatValue => exact agrees_float
  | _, .stringValue => exact .terminal _ rfl
  | _, .enumValue => exact .terminal _ rfl
  | _, .variable =>
    exact AgreesAt.lead (.token _ _ nofun) (Rule.productive_token ..) fun _ =>
      .bind (hless .name) fun _ => .pure _
  | _, .namedType => exact (hhere .name (by decide)).map _
  | _, .listValue =>
    exact AgreesAt.lead (.token _ _ nofun) (Rule.productive_token ..) fun _ =>
      .bind ((hless .value).many value.productive) fun _ =>
      .bind (.token _ _ nofun) fun _ => .pure _
  | _, .objectValue =>
    exact AgreesAt.lead (.token _ _ nofun) (Rule.productive_token ..) fun _ =>
      .bind ((hless .objectField).many objectField.productive) fun _ =>
      .bind (.token _ _ nofun) fun _ => .pure _
  | _, .objectField =>
    exact AgreesAt.lead (hhere .name (by decide)) name.productive fun _ =>
      .bind (.token _ _ nofun) fun _ => .bind (hless .value) fun _ => .pure _
  | _, .argument =>
    exact AgreesAt.lead (hhere .name (by decide)) name.productive fun _ =>
      .bind (.token _ _ nofun) fun _ => .bind (hless .value) fun _ => .pure _
  | _, .directive =>
    exact AgreesAt.lead (.token _ _ nofun) (Rule.productive_token ..) fun _ =>
      .bind (hless .name) fun _ =>
      .bind (.group _ argument.productive (hless .argument)) fun _ => .pure _
  | _, .value =>
    refine .orElse (agrees_word _ _ _) (restores_word _ _ _) ?_
    refine .orElse (hhere .booleanValue (by decide)) hliterals.boolean ?_
    refine .orElse (((hhere .variable (by decide)).map _).attempt) (restores_attempt _) ?_
    refine .orElse (hhere .stringValue (by decide)) hliterals.string ?_
    refine .orElse agrees_number (restores_terminal _ _) ?_
    refine .orElse (hhere .enumValue (by decide)) hliterals.enum ?_
    exact .orElse (hhere .listValue (by decide)).attempt (restores_attempt _)
      (.expecting _ (hhere .objectValue (by decide)).attempt)
  | _, .typeRef =>
    have hcore : ∀ (core : TypeRef) (later : List Char), AgreesAt
        (do if ← Engine.takes .bang .nonNullType then return .nonNull core else return core)
        (do if ← Rule.takes .bang .nonNullType then return .nonNull core else return core)
        later := by
      intro core later
      refine (AgreesAt.takes .bang .nonNullType nofun).bind fun b _ _ _ => ?_
      cases b
      · exact .pure _
      · exact .pure _
    refine (AgreesAt.takes .bracketL .listType nofun).bind fun b later hahead hread => ?_
    rcases Rule.reads_takes.mp hread with ⟨rfl, hopen⟩ | ⟨rfl, hsame, -⟩
    · have hfewer : (terminalsAt later).length < (terminalsAt place).length := by
        rw [hopen]
        exact Nat.lt_succ_self _
      exact AgreesPast.bind (hless .typeRef) (fun _ => .bind (.token .bracketR .listType nofun)
        fun _ => .bind (.pure _) fun core later _ _ => hcore core later)
        hahead.suffix (hahead.fewer_iff.mp hfewer)
    · obtain rfl : later = place := hahead.eq_of_terminals hsame
      exact (hhere .namedType (by decide)).bind fun _ _ _ _ =>
        (AgreesAt.pure _).bind fun core later _ _ => hcore core later
  | _, .selectionSet =>
    exact AgreesAt.lead (.token _ _ nofun) (Rule.productive_token ..) fun _ =>
      .bind ((hless .selection).many1 selection.productive) fun _ =>
      .bind (.token _ _ nofun) fun _ => .pure _
  | _, .selection =>
    refine .orElse ((hhere .fragmentSpread (by decide)).map _).attempt (restores_attempt _) ?_
    refine .orElse ((hhere .inlineFragment (by decide)).map _).attempt (restores_attempt _) ?_
    exact .expecting _ ((hhere .field (by decide)).map _).attempt
  | _, .field =>
    have hname := AgreesPast.bind (.token .colon .field nofun) fun _ => hless .name
    refine AgreesAt.lead (hhere .name (by decide)) name.productive fun _ =>
      .bind hname.optional fun second =>
      .bind (.group _ argument.productive (hless .argument)) fun _ =>
      .bind ((hless .directive).many directive.productive) fun _ =>
      .bind (hless .selectionSet).optional fun _ => ?_
    cases second
    · exact .pure _
    · exact .pure _
  | _, .fragmentSpread =>
    exact AgreesAt.lead (.token _ _ nofun) (Rule.productive_token ..) fun _ =>
      .bind (.notFollowedBy _ (.keyword _ _)) fun _ => .bind (hless .name) fun _ =>
      .bind ((hless .directive).many directive.productive) fun _ => .pure _
  | _, .inlineFragment =>
    have hcondition := AgreesPast.bind (.keyword "on" .inlineFragment) fun _ => hless .namedType
    exact AgreesAt.lead (.token _ _ nofun) (Rule.productive_token ..) fun _ =>
      .bind hcondition.optional fun _ =>
      .bind ((hless .directive).many directive.productive) fun _ =>
      .bind (hless .selectionSet) fun _ => .pure _
  | _, .variableDefinition =>
    have hdefault := AgreesPast.bind (.token .equals .variableDefinition nofun) fun _ =>
      hless .value
    exact AgreesAt.lead (hhere .variable (by decide)) variable.productive fun _ =>
      .bind (.token _ _ nofun) fun _ => .bind (hless .typeRef) fun _ =>
      .bind hdefault.optional fun _ =>
      .bind ((hless .directive).many directive.productive) fun _ => .pure _
  | _, .fragmentDefinition =>
    exact AgreesAt.lead (.keyword _ _) (Rule.productive_token ..) fun _ =>
      .bind (.notFollowedBy _ (.keyword _ _)) fun _ => .bind (hless .name) fun _ =>
      .bind (.keyword _ _) fun _ => .bind (hless .namedType) fun _ =>
      .bind ((hless .directive).many directive.productive) fun _ =>
      .bind (hless .selectionSet) fun _ => .pure _
  | _, .operationDefinition =>
    exact AgreesAt.lead (hhere .operationKind (by decide)) operationKind.productive fun _ =>
      .bind (hless .name).optional fun _ =>
      .bind (.group _ variableDefinition.productive (hless .variableDefinition)) fun _ =>
      .bind ((hless .directive).many directive.productive) fun _ =>
      .bind (hless .selectionSet) fun _ => .pure _
  | _, .definition =>
    refine .orElse ((hhere .operationDefinition (by decide)).map _).attempt (restores_attempt _) ?_
    exact .expecting _ ((hhere .fragmentDefinition (by decide)).map _).attempt
  | _, .document =>
    refine .orElse (((hhere .selectionSet (by decide)).map _).attempt.map _)
      ((restores_attempt _).map _) ((AgreesAt.expecting _ ?_).map _)
    exact AgreesAt.lead (hhere .definition (by decide)).attempt definition.productive.attempt
      fun _ => .bind ((hless .definition).many definition.productive) fun _ => .pure _

/-- Where calls come to an end more often, so does what a production is composed of. -/
theorem body_le (h : ∀ (β : Type) (q : Symbol β), Le (call q) (call' q)) {α : Type}
    (s : Symbol α) : Le (s.body call) (s.body call') := by
  match α, s with
  | _, .operationKind | _, .name | _, .booleanValue | _, .intValue | _, .floatValue
  | _, .stringValue | _, .enumValue => exact .refl _
  | _, .variable => exact .bind (.refl _) fun _ => .bind (h _ _) fun _ => .refl _
  | _, .namedType => exact .bind (h _ _) fun _ => .refl _
  | _, .listValue | _, .objectValue =>
    exact .bind (.refl _) fun _ => .bind (h _ _).many fun _ => .refl _
  | _, .objectField | _, .argument =>
    exact .bind (h _ _) fun _ => .bind (.refl _) fun _ => .bind (h _ _) fun _ => .refl _
  | _, .directive =>
    exact .bind (.refl _) fun _ => .bind (h _ _) fun _ => .bind (.group _ (h _ _)) fun _ => .refl _
  | _, .value =>
    refine .orElse (.refl _) (.orElse (h _ _) ?_)
    refine .orElse (.attempt (.bind (h _ _) fun _ => .refl _)) (.orElse (h _ _) ?_)
    refine .orElse (.refl _) (.orElse (h _ _) ?_)
    exact .orElse (h _ _).attempt (.expecting _ (h _ _).attempt)
  | _, .typeRef =>
    refine .bind (.refl _) fun b => ?_
    cases b
    · exact .bind (h _ .namedType) fun _ => .refl _
    · exact .bind (h _ .typeRef) fun _ => .refl _
  | _, .selectionSet => exact .bind (.refl _) fun _ => .bind (h _ _).many1 fun _ => .refl _
  | _, .selection =>
    refine .orElse (.attempt (.bind (h _ _) fun _ => .refl _)) ?_
    refine .orElse (.attempt (.bind (h _ _) fun _ => .refl _)) ?_
    exact .expecting _ (.attempt (.bind (h _ _) fun _ => .refl _))
  | _, .field =>
    have hname := Le.bind (.refl (Engine.token .colon .field)) fun _ => h _ name
    exact .bind (h _ _) fun _ => .bind hname.optional fun _ => .bind (.group _ (h _ _)) fun _ =>
      .bind (h _ _).many fun _ => .bind (h _ _).optional fun _ => .refl _
  | _, .fragmentSpread =>
    exact .bind (.refl _) fun _ => .bind (.refl _) fun _ => .bind (h _ _) fun _ =>
      .bind (h _ _).many fun _ => .refl _
  | _, .inlineFragment =>
    have hcondition := Le.bind (.refl (Action.keyword "on" .inlineFragment)) fun _ => h _ namedType
    exact .bind (.refl _) fun _ => .bind hcondition.optional fun _ => .bind (h _ _).many fun _ =>
      .bind (h _ _) fun _ => .refl _
  | _, .variableDefinition =>
    have hdefault := Le.bind (.refl (Engine.token .equals .variableDefinition)) fun _ => h _ value
    exact .bind (h _ _) fun _ => .bind (.refl _) fun _ => .bind (h _ _) fun _ =>
      .bind hdefault.optional fun _ => .bind (h _ _).many fun _ => .refl _
  | _, .fragmentDefinition =>
    exact .bind (.refl _) fun _ => .bind (.refl _) fun _ => .bind (h _ _) fun _ =>
      .bind (.refl _) fun _ => .bind (h _ _) fun _ => .bind (h _ _).many fun _ =>
      .bind (h _ _) fun _ => .refl _
  | _, .operationDefinition =>
    exact .bind (h _ _) fun _ => .bind (h _ _).optional fun _ => .bind (.group _ (h _ _)) fun _ =>
      .bind (h _ _).many fun _ => .bind (h _ _) fun _ => .refl _
  | _, .definition =>
    refine .orElse (.attempt (.bind (h _ _) fun _ => .refl _)) ?_
    exact .expecting _ (.attempt (.bind (h _ _) fun _ => .refl _))
  | _, .document =>
    refine .orElse (.bind (.attempt (.bind (h _ _) fun _ => .refl _)) fun _ => .refl _) ?_
    exact .bind (.expecting _ (h _ _).many1) fun _ => .refl _

end Calls

/-! ## Nested calls -/

section Nested
variable {α : Type} {s : Symbol α} {place : List Char} {c : Cursor} {n : Nat}

theorem restoresLiterals_run (n : Nat) : RestoresLiterals (run n) := by
  cases n with
  | zero => exact ⟨nofun, nofun, nofun⟩
  | succ n =>
    exact ⟨.orElse (restores_word _ _ _) (restores_word _ _ _), restores_terminal _ _,
      restores_terminal _ _⟩

/-- Calls end before they are nested deeper than that, and then the production does what its rule
does. -/
theorem agrees_run (hn : s.depth place < n) :
    AgreesAt (run n s) s.rule place := by
  induction n generalizing α place with
  | zero => exact absurd hn (Nat.not_lt_zero _)
  | succ n ih =>
    refine agrees_body (restoresLiterals_run n) fun β q later hlower => ih ?_
    exact Nat.lt_of_lt_of_le hlower.depth_lt (Nat.le_of_lt_succ hn)

theorem run_le {m : Nat} (h : m ≤ n) (s : Symbol α) : Le (run m s) (run n s) := by
  induction m generalizing α n with
  | zero => exact nofun
  | succ m ih =>
    obtain ⟨k, rfl⟩ :=
      Nat.exists_eq_succ_of_ne_zero (Nat.ne_of_gt (Nat.lt_of_lt_of_le m.succ_pos h))
    exact body_le (fun β q => ih (Nat.le_of_succ_le_succ h) q) s

/-- A production as an action, with calls nested as deep as what is left of the text needs. -/
def read (s : Symbol α) : Action α := fun c => run (s.depth c.place + 1) s c

theorem agrees_read (s : Symbol α) (place : List Char) : AgreesAt s.read s.rule place :=
  fun before => agrees_run (Nat.lt_succ_self _) before

theorem restoresLiterals_read : RestoresLiterals read where
  boolean _ _ _ h := (restoresLiterals_run _).boolean h
  string _ _ _ h := (restoresLiterals_run _).string h
  enum _ _ _ h := (restoresLiterals_run _).enum h

/-- Deeper nesting than that changes nothing. -/
theorem run_of_depth (hn : s.depth c.place < n) : run n s c = s.read c := by
  obtain ⟨o, ho⟩ := (agrees_read s c.place).ends c.trail
  have hle : Le (run (s.depth c.place + 1) s) (run n s) := run_le hn s
  exact (hle ho).trans ho.symm

/-- The calls at lower readings than a given one; no other call comes to an end. -/
def callsBelow (s : Symbol α) (place : List Char) {β : Type} (q : Symbol β) : Action β := fun c =>
  if q.Lower c.place s place then q.read c else none

theorem callsBelow_eq_some {β : Type} {q : Symbol β} {o : Except Kind β × Cursor} :
    s.callsBelow place q c = some o ↔ q.Lower c.place s place ∧ q.read c = some o := by
  unfold callsBelow
  split
  · next h => exact ⟨fun ho => ⟨h, ho⟩, And.right⟩
  · next h => exact ⟨nofun, fun ho => absurd ho.1 h⟩

theorem callsBelow_le (s : Symbol α) (place : List Char) {β : Type} (q : Symbol β) :
    Le (s.callsBelow place q) q.read := fun _ _ ho => (callsBelow_eq_some.mp ho).2

/-- The calls at lower readings are enough for what a production is composed of. -/
theorem agrees_callsBelow (s : Symbol α) (place : List Char) :
    AgreesAt (s.body (s.callsBelow place)) s.rule place := by
  refine agrees_body ?_ fun β q later hlower before => ?_
  · exact ⟨restoresLiterals_read.boolean.of_le (callsBelow_le ..),
      restoresLiterals_read.string.of_le (callsBelow_le ..),
      restoresLiterals_read.enum.of_le (callsBelow_le ..)⟩
  · have hcall : s.callsBelow place q ⟨later, before⟩ = q.read ⟨later, before⟩ :=
      if_pos hlower
    rw [hcall]
    exact agrees_read q later before

/-- A production is composed of calls at lower readings: what calls would do elsewhere, if they came
to an end at all, does not matter. -/
theorem read_of_lower {call : {β : Type} → Symbol β → Action β}
    (h : ∀ (β : Type) (q : Symbol β) (c' : Cursor),
      q.Lower c'.place s c.place → call q c' = q.read c') :
    s.read c = s.body call c := by
  obtain ⟨o, ho⟩ := (agrees_callsBelow s c.place).ends c.trail
  have hcall : Le (s.body (s.callsBelow c.place)) (s.body call) := by
    refine body_le (fun β q c' o ho => ?_) s
    obtain ⟨hlower, hread⟩ := callsBelow_eq_some.mp ho
    exact (h β q c' hlower).trans hread
  have hrun : Le (s.body (s.callsBelow c.place))
      (s.body (run (s.depth c.place))) := by
    refine body_le (fun β q c' o ho => ?_) s
    obtain ⟨hlower, hread⟩ := callsBelow_eq_some.mp ho
    exact (run_of_depth hlower.depth_lt).trans hread
  exact (hrun ho).trans (hcall ho).symm

end Nested
end Symbol
end QueryDoc
