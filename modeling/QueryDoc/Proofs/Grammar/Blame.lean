import QueryDoc.Proofs.Grammar.Probing
import QueryDoc.Proofs.Grammar.Unfold

/-! A rule that fails has missed a terminal, so there is a place to report. This is one lemma
for each way to build a rule and one for each rule: a sequence fails in one of its parts, and
a choice only where its first alternative has failed. The rules for numbers of one sort are
the exceptions: they read a number of the other sort and then fail without asking for a
terminal. -/
namespace QueryDoc.Rule

variable {α β : Type} {r s : Rule α} {f : α → Rule β} {kind : Kind} {input : List Token}

/-! ## Ways to build rules -/

/-- If a rule fails on some terminals, it has missed one of them or one after their end. -/
def BlamesOn (r : Rule α) (input : List Token) : Prop :=
  Misses r input → ∃ rest, Stumbles r input rest

/-- A rule that does not fail without a miss. -/
def Blames (r : Rule α) : Prop := ∀ input, BlamesOn r input

/-- A sequence blames a terminal where its first part does, and its second part on what the
first one leaves. -/
theorem BlamesOn.bind (hr : BlamesOn r input)
    (hf : ∀ a mid, Reads r input a mid → BlamesOn (f a) mid) : BlamesOn (r >>= f) input := by
  intro h
  rcases misses_bind.mp h with hfirst | ⟨a, mid, hread, hsecond⟩
  · obtain ⟨rest, hrest⟩ := hr hfirst
    exact ⟨rest, stumbles_bind.mpr (.inl hrest)⟩
  · obtain ⟨rest, hrest⟩ := hf a mid hread hsecond
    exact ⟨rest, stumbles_bind.mpr (.inr ⟨a, mid, hread, hrest⟩)⟩

theorem BlamesOn.attempt (hr : BlamesOn r input) : BlamesOn (attempt r) input := by
  intro h
  obtain ⟨rest, hrest⟩ := hr (misses_attempt.mp h)
  exact ⟨rest, stumbles_attempt.mpr hrest⟩

namespace Blames

/-- A rule that never fails blames nothing. -/
theorem of_reads (h : ∀ input, ∃ a rest, Reads r input a rest) : Blames r := by
  intro input hmiss
  obtain ⟨a, rest, hread⟩ := h input
  exact absurd hmiss hread.not_misses

theorem nothing (a : α) : Blames (Pure.pure a : Rule α) := of_reads fun _ => ⟨a, _, reads_self⟩

theorem bind (hr : Blames r) (hf : ∀ a, Blames (f a)) : Blames (r >>= f) :=
  fun input => .bind (hr input) fun a mid _ => hf a mid

theorem map (hr : Blames r) (g : α → β) : Blames (r >>= fun a => Pure.pure (g a)) :=
  bind hr fun _ => nothing _

theorem terminal (accept : Token → Option α) : Blames (terminal kind accept) := by
  intro input h
  refine ⟨input, ?_⟩
  cases input with
  | nil => exact List.mem_singleton_self _
  | cons t ts =>
    have haccept : accept t = none := misses_terminal_cons.mp h
    simp [Stumbles, Rule.terminal, haccept]

theorem token (t : Token) : Blames (token t kind) := terminal _

theorem keyword (word : String) : Blames (keyword word kind) := terminal _

theorem name : Blames name := terminal _

theorem finish : Blames (finish kind) := by
  intro input h
  cases input with
  | nil => exact absurd h (reads_finish.mpr ⟨rfl, rfl⟩ : Reads _ [] () []).not_misses
  | cons t ts => exact ⟨t :: ts, List.mem_singleton_self _⟩

/-- Where all alternatives fail the first one does, and what it has missed stays. -/
theorem orElse (hr : Blames r) (s : Rule α) : Blames (orElse r s) := by
  intro input h
  obtain ⟨rest, hrest⟩ := hr input (misses_orElse.mp h).1
  refine ⟨rest, ?_⟩
  cases hfirst : (r input).result with
  | ok o => simpa [Stumbles, Rule.orElse, hfirst] using hrest
  | error kind => simp [Stumbles, Rule.orElse, hfirst, show _ ∈ (r input).trail from hrest]

theorem attempt (hr : Blames r) : Blames (attempt r) := fun input => (hr input).attempt

/-- What must not come next is missed where it comes. -/
theorem notFollowedBy (r : Rule α) : Blames (notFollowedBy kind r) := by
  intro input h
  cases hr : (r input).result with
  | ok o => exact ⟨input, by simp [Stumbles, Rule.notFollowedBy, hr]⟩
  | error missed => exact absurd h (reads_unless ⟨missed, hr⟩).not_misses

theorem optional (r : Rule α) : Blames (optional r) := by
  refine of_reads fun input => ?_
  rcases reads_or_misses r input with ⟨a, rest, hread⟩ | hmiss
  · exact ⟨some a, rest, reads_optional.mpr (.inl ⟨a, rfl, hread⟩)⟩
  · exact ⟨none, input, reads_optional.mpr (.inr ⟨hmiss, rfl, rfl⟩)⟩

theorem takes (t : Token) : Blames (takes t kind) := by
  refine of_reads fun input => ?_
  rcases reads_or_misses (Rule.token t kind) input with ⟨u, rest, hread⟩ | hmiss
  · exact ⟨true, rest, reads_takes.mpr (.inl ⟨rfl, reads_token.mp hread⟩)⟩
  · exact ⟨false, input, reads_takes.mpr (.inr ⟨rfl, rfl, hmiss⟩)⟩

theorem many (r : Rule α) : Blames (many r) := by
  refine of_reads fun input => ?_
  -- On the length of the input, since only a part that took up a terminal is followed by others.
  induction hn : input.length using Nat.strongRecOn generalizing input with
  | _ n ih =>
    rcases reads_or_misses r input with ⟨a, mid, hread⟩ | hmiss
    · by_cases hlt : mid.length < input.length
      · obtain ⟨as, rest, hothers⟩ := ih mid.length (hn ▸ hlt) mid rfl
        exact ⟨a :: as, rest, many_some hread hlt hothers⟩
      · refine ⟨[a], mid, ?_⟩
        rw [Reads] at hread
        rw [Reads, Rule.many]
        simp [Rule.attempt, hread, hlt]
    · exact ⟨[], input, many_none hmiss⟩

theorem many1 (hr : Blames r) : Blames (many1 r) :=
  bind hr.attempt fun _ => map (many r) _

end Blames

/-! ## Names, values and types -/

theorem blames_variableRef : Blames variableRef := .bind (.token _) fun _ => .map .name _

theorem blames_boolean : Blames boolean := .orElse (.map (.keyword _) _) _

theorem blames_listOf (item : Rule Value) : Blames (listOf item) :=
  .bind (.token _) fun _ => .bind (.many item) fun _ => .map (.token _) _

theorem blames_objectOf (item : Rule Value) : Blames (objectOf item) :=
  .bind (.token _) fun _ => .bind (.many _) fun _ => .map (.token _) _

/-- Where no value is read, the word for the first kind of value was missed. -/
theorem blames_value : Blames value := by
  rw [value_eq]
  exact .orElse (.map (.keyword "null") _) _

theorem blames_objectField : Blames objectField :=
  .bind .name fun _ => .bind (.token _) fun _ => .map blames_value _

theorem blames_namedType : Blames namedType := .map .name _

/-- The item of a list type is read after a bracket, so the induction is on the input. -/
theorem blames_typeRef : Blames typeRef := by
  intro input
  induction hn : input.length using Nat.strongRecOn generalizing input with
  | _ n ih =>
    have hmark : ∀ core : TypeRef, Blames
        (do if ← takes .bang .nonNullType then return .nonNull core else return core) := by
      refine fun core => .bind (.takes _) fun marked => ?_
      cases marked <;> exact .nothing _
    rw [typeRef_eq]
    refine .bind (Blames.takes _ input) fun isList mid hread => ?_
    rcases reads_takes.mp hread with ⟨rfl, rfl⟩ | ⟨rfl, rfl, -⟩
    · have hitem : BlamesOn typeRef mid := ih mid.length (by rw [← hn]; simp) mid rfl
      exact .bind hitem fun inner rest _ => (Blames.bind (.token _) fun _ => hmark _) rest
    · exact (Blames.bind blames_namedType fun _ => hmark _) mid

/-! ## Selections -/

theorem blames_argument : Blames argument :=
  .bind .name fun _ => .bind (.token _) fun _ => .map blames_value _

theorem blames_arguments : Blames arguments := .map (.optional _) _

theorem blames_directive : Blames directive :=
  .bind (.token _) fun _ => .bind .name fun _ => .map blames_arguments _

theorem blames_directives : Blames directives := .many _

theorem blames_fieldOf (members : Rule SelectionSet) : Blames (fieldOf members) := by
  refine .bind .name fun _ => .bind (.optional _) fun second => ?_
  refine .bind blames_arguments fun _ => .bind blames_directives fun _ => ?_
  refine .bind (.optional _) fun _ => ?_
  cases second <;> exact .nothing _

theorem blames_fragmentSpread : Blames fragmentSpread :=
  .bind (.token _) fun _ => .bind (.notFollowedBy _) fun _ => .bind .name fun _ =>
    .map blames_directives _

theorem blames_selectionOf (members : Rule SelectionSet) : Blames (selectionOf members) :=
  .orElse (.attempt (.map blames_fragmentSpread _)) _

theorem blames_selectionSet : Blames selectionSet := by
  rw [selectionSet_eq]
  exact .bind (.token _) fun _ => .bind (.many1 (blames_selectionOf _)) fun _ => .map (.token _) _

theorem blames_inlineFragment : Blames inlineFragment :=
  .bind (.token _) fun _ => .bind (.optional _) fun _ => .bind blames_directives fun _ =>
    .map blames_selectionSet _

/-! ## Definitions and documents -/

theorem blames_variableDefinition : Blames variableDefinition :=
  .bind blames_variableRef fun _ => .bind (.token _) fun _ => .bind blames_typeRef fun _ =>
    .bind (.optional _) fun _ => .map blames_directives _

theorem blames_fragmentDefinition : Blames fragmentDefinition :=
  .bind (.keyword _) fun _ => .bind (.notFollowedBy _) fun _ => .bind .name fun _ =>
    .bind (.keyword _) fun _ => .bind blames_namedType fun _ => .bind blames_directives fun _ =>
    .map blames_selectionSet _

theorem blames_operationKind : Blames operationKind := .orElse (.map (.keyword _) _) _

theorem blames_operationDefinition : Blames operationDefinition :=
  .bind blames_operationKind fun _ => .bind (.optional _) fun _ => .bind (.map (.optional _) _)
    fun _ => .bind blames_directives fun _ => .map blames_selectionSet _

theorem blames_definition : Blames definition :=
  .orElse (.attempt (.map blames_operationDefinition _)) _

theorem blames_document : Blames document :=
  .orElse (.map (.attempt (.map blames_selectionSet _)) _) _

/-! ## Numbers of one sort -/

/-- The first terminal is a number of the other sort than the entry reads. -/
inductive OtherNumber : Entry → List Token → Prop where
  | float {text : String} (h : Numeral.isFloat text.toList = true) (more : List Token) :
      OtherNumber .intValue (.number text :: more)
  | int {text : String} (h : Numeral.isFloat text.toList = false) (more : List Token) :
      OtherNumber .floatValue (.number text :: more)

theorem blamesOn_int (h : ¬ OtherNumber .intValue input) : BlamesOn int input := by
  refine .attempt (.bind (Blames.terminal _ input) fun v rest hread => ?_)
  obtain ⟨text, rfl, rfl⟩ := reads_number hread
  cases hfloat : Numeral.isFloat text.toList with
  | true => exact absurd (.float hfloat rest) h
  | false => exact Blames.nothing _ rest

theorem blamesOn_float (h : ¬ OtherNumber .floatValue input) : BlamesOn float input := by
  refine .attempt (.bind (Blames.terminal _ input) fun v rest hread => ?_)
  obtain ⟨text, rfl, rfl⟩ := reads_number hread
  cases hfloat : Numeral.isFloat text.toList with
  | true => exact Blames.nothing _ rest
  | false => exact absurd (.int hfloat rest) h

/-- A number is read without a miss, and giving up on its value is none. -/
theorem silent_number {text : String} {more : List Token} {v : Value} {g : Value → Rule Value}
    (hread : Reads number (.number text :: more) v more) (hg : g v = fail kind) :
    Misses (Entry.seen (attempt (number >>= g))) (.number text :: more) ∧
      ∀ rest, ¬ Stumbles (Entry.seen (attempt (number >>= g))) (.number text :: more) rest := by
  have hmiss : Misses (g v) more := ⟨kind, by rw [hg]; rfl⟩
  have hsort : Misses (attempt (number >>= g)) (.number text :: more) :=
    misses_attempt.mpr (misses_bind.mpr (.inr ⟨v, more, hread, hmiss⟩))
  refine ⟨hsort.bind, fun rest h => ?_⟩
  rcases stumbles_bind.mp h with h | ⟨w, mid, hread', h⟩
  · rcases stumbles_bind.mp (stumbles_attempt.mp h) with h | ⟨w, mid, hread', h⟩
    · cases h
    · obtain ⟨rfl, rfl⟩ := hread.unique hread'
      rw [hg] at h
      cases h
  · exact stumbles_return h

/-- On a number of the other sort an entry fails, and it has not missed anything. -/
theorem OtherNumber.silent {e : Entry} (h : OtherNumber e input) :
    Misses e.rule input ∧ ∀ rest, ¬ Stumbles e.rule input rest := by
  cases h with
  | @float text hfloat more =>
    have hread : Reads number (.number text :: more) (.float text) more :=
      reads_terminal.mpr ⟨_, rfl, by simp [hfloat]⟩
    exact silent_number hread rfl
  | @int text hfloat more =>
    have hread : Reads number (.number text :: more) (.int text) more :=
      reads_terminal.mpr ⟨_, rfl, by simp [hfloat]⟩
    exact silent_number hread rfl

/-! ## Entries -/

theorem blamesOn_entry (e : Entry) (h : ¬ OtherNumber e input) : BlamesOn e.rule input := by
  have hseen : ∀ {α : Type} [IsNode α] {r : Rule α}, BlamesOn r input →
      BlamesOn (Entry.seen r) input :=
    fun hr => .bind hr fun _ rest _ => Blames.nothing _ rest
  match e with
  | .document => exact hseen (blames_document input)
  | .definition => exact hseen (blames_definition input)
  | .operationDefinition => exact hseen (blames_operationDefinition input)
  | .fragmentDefinition => exact hseen (blames_fragmentDefinition input)
  | .variableDefinition => exact hseen (blames_variableDefinition input)
  | .typeRef => exact hseen (blames_typeRef input)
  | .namedType => exact hseen (blames_namedType input)
  | .selectionSet => exact hseen (blames_selectionSet input)
  | .selection => exact hseen (blames_selectionOf _ input)
  | .field => exact hseen (blames_fieldOf _ input)
  | .fragmentSpread => exact hseen (blames_fragmentSpread input)
  | .inlineFragment => exact hseen (blames_inlineFragment input)
  | .directive => exact hseen (blames_directive input)
  | .argument => exact hseen (blames_argument input)
  | .name => exact hseen (Blames.name input)
  | .variable => exact hseen (blames_variableRef input)
  | .value => exact hseen (blames_value input)
  | .booleanValue => exact hseen (blames_boolean input)
  | .intValue => exact hseen (blamesOn_int h)
  | .floatValue => exact hseen (blamesOn_float h)
  | .stringValue => exact hseen (Blames.terminal _ input)
  | .enumValue => exact hseen (Blames.terminal _ input)
  | .listValue => exact hseen (blames_listOf _ input)
  | .objectValue => exact hseen (blames_objectOf _ input)
  | .objectField => exact hseen (blames_objectField input)

end QueryDoc.Rule
