import QueryDoc.Proofs.Grammar.Soundness

/-! Values, types and selection sets contain themselves, so their rules call
themselves, each time on less input. The bound under which they do so never cuts
anything off: each of the three is the very rule that reads its parts by itself. -/
namespace QueryDoc.Rule

variable {α β : Type} {n : Nat}

/-! ## Rules that agree -/

section At
variable {r r' s s' : Rule α} {input : List Token}

/-- Sequences do the same on an input where their first parts do, and their second parts on what
those leave. -/
theorem bind_at {f g : α → Rule β} (h : r input = s input)
    (hf : ∀ a rest, Reads r input a rest → f a rest = g a rest) :
    (r >>= f) input = (s >>= g) input := by
  show Rule.bind r f input = Rule.bind s g input
  rw [Rule.bind, Rule.bind, ← h]
  cases hr : (r input).result with
  | error kind => rfl
  | ok p => simp only [hf _ _ hr]

theorem attempt_at (h : r input = s input) : attempt r input = attempt s input := by
  simp only [attempt, h]

theorem expecting_at {kind : Kind} (h : r input = s input) :
    expecting kind r input = expecting kind s input := by
  simp only [expecting, h]

theorem orElse_at (h : r input = r' input) (hs : s input = s' input) :
    orElse r s input = orElse r' s' input := by
  simp only [orElse, h, hs]

end At

/-- Two rules that do the same on all inputs below a length. -/
def AgreeBelow (n : Nat) (r s : Rule α) : Prop :=
  ∀ ⦃input⦄, input.length < n → r input = s input

theorem AgreeBelow.refl (n : Nat) (r : Rule α) : AgreeBelow n r r := fun _ _ => rfl

theorem AgreeBelow.bind {r s : Rule α} {f g : α → Rule β} (h : AgreeBelow n r s)
    (hf : ∀ {input a rest}, input.length < n → Reads r input a rest → f a rest = g a rest) :
    AgreeBelow n (r >>= f) (s >>= g) :=
  fun _ hn => bind_at (h hn) fun _ _ => hf hn

/-- After a rule that does not lengthen its input, it is enough to agree on what is
left. -/
theorem AgreeBelow.seq {r s : Rule α} {p : Phrase α} {f g : α → Rule β} (hr : Sound r p)
    (h : AgreeBelow n r s) (hf : ∀ a, AgreeBelow n (f a) (g a)) :
    AgreeBelow n (r >>= f) (s >>= g) :=
  h.bind fun hn hread => hf _ (Nat.lt_of_le_of_lt (hr.length_le hread) hn)

theorem AgreeBelow.bind_right {r : Rule α} {p : Phrase α} {f g : α → Rule β} (hr : Sound r p)
    (hf : ∀ a, AgreeBelow n (f a) (g a)) : AgreeBelow n (r >>= f) (r >>= g) :=
  .seq hr (.refl n r) hf

/-- After a terminal, it is enough to agree on one terminal less. -/
theorem AgreeBelow.token_bind {t : Token} {kind : Kind} {f g : Unit → Rule β}
    (hf : ∀ u, AgreeBelow n (f u) (g u)) :
    AgreeBelow (n + 1) (token t kind >>= f) (token t kind >>= g) := by
  refine .bind (.refl _ _) fun hn h => hf _ ?_
  obtain rfl := reads_token.mp h
  simpa using hn

theorem AgreeBelow.mono {m : Nat} {r s : Rule α} (h : AgreeBelow n r s) (hm : m ≤ n) :
    AgreeBelow m r s := fun _ hi => h (Nat.lt_of_lt_of_le hi hm)

theorem AgreeBelow.attempt {r s : Rule α} (h : AgreeBelow n r s) :
    AgreeBelow n (attempt r) (attempt s) :=
  fun _ hn => attempt_at (h hn)

theorem AgreeBelow.expecting {r s : Rule α} {kind : Kind} (h : AgreeBelow n r s) :
    AgreeBelow n (expecting kind r) (expecting kind s) :=
  fun _ hn => expecting_at (h hn)

theorem AgreeBelow.orElse {r r' s s' : Rule α} (h : AgreeBelow n r r') (hs : AgreeBelow n s s') :
    AgreeBelow n (orElse r s) (orElse r' s') :=
  fun _ hn => orElse_at (h hn) (hs hn)

theorem AgreeBelow.optional {r s : Rule α} (h : AgreeBelow n r s) :
    AgreeBelow n (optional r) (optional s) :=
  .orElse (.bind h.attempt fun _ _ => rfl) (.refl n _)

theorem AgreeBelow.many {r s : Rule α} (h : AgreeBelow n r s) :
    AgreeBelow n (many r) (many s) := by
  intro input
  induction hm : input.length using Nat.strongRecOn generalizing input with
  | _ m ih =>
    intro hn
    rw [Rule.many, Rule.many, ← h.attempt (hm ▸ hn)]
    cases hr : (Rule.attempt r input).result with
    | error kind => rfl
    | ok p =>
      by_cases hlt : p.2.length < input.length
      · simp only [hlt, if_true, ih p.2.length (hm ▸ hlt) rfl (by omega)]
      · simp only [hlt, if_false]

theorem AgreeBelow.many1 {r s : Rule α} {p : Phrase α} (hr : Sound r p) (h : AgreeBelow n r s) :
    AgreeBelow n (many1 r) (many1 s) :=
  .seq (fun _ _ _ ha => hr (reads_attempt.mp ha)) h.attempt fun _ => .bind h.many fun _ _ => rfl

/-- A rule whose body needs the rule itself only on shorter inputs is its body. -/
theorem eq_body {r : Rule α} {body : Rule α → Rule α} {kind : Kind}
    (hr : ∀ input, r input = body (within input kind fun rest _ => r rest) input)
    (hb : ∀ {n s}, AgreeBelow n r s → AgreeBelow (n + 1) (body r) (body s)) : r = body r := by
  funext input
  have hs : AgreeBelow input.length r (within input kind fun rest _ => r rest) := by
    intro rest hlt
    rw [within, dif_pos hlt]
  rw [hr, hb hs (Nat.lt_succ_self _)]

/-! ## Values -/

theorem agree_valueOf {r s : Rule Value} (h : AgreeBelow n r s) :
    AgreeBelow (n + 1) (valueOf r) (valueOf s) := by
  have hl : AgreeBelow (n + 1) (listOf r) (listOf s) :=
    .token_bind fun _ => .bind h.many fun _ _ => rfl
  have hf : AgreeBelow n (objectFieldOf r) (objectFieldOf s) :=
    .bind_right sound_name fun _ => (AgreeBelow.token_bind fun _ =>
      .bind h fun _ _ => rfl).mono (Nat.le_succ n)
  have ho : AgreeBelow (n + 1) (objectOf r) (objectOf s) :=
    .token_bind fun _ => .bind hf.many fun _ _ => rfl
  have hrefl {t : Rule Value} := AgreeBelow.refl (n + 1) t
  exact hrefl.orElse (hrefl.orElse (hrefl.orElse (hrefl.orElse (hrefl.orElse (hrefl.orElse
    (hl.attempt.orElse ho.attempt.expecting))))))

theorem value_eq : value = valueOf value :=
  eq_body (fun input => by rw [value]) agree_valueOf

/-! ## Types -/

theorem agree_typeRefOf {r s : Rule TypeRef} (h : AgreeBelow n r s) :
    AgreeBelow (n + 1) (typeRefOf r) (typeRefOf s) := by
  refine .bind (.refl _ _) fun {input b rest} hn hb => ?_
  rcases reads_takes.mp hb with ⟨rfl, rfl⟩ | ⟨rfl, rfl, -⟩
  · exact AgreeBelow.bind h (fun _ _ => rfl) (by simpa using hn)
  · rfl

theorem typeRef_eq : typeRef = typeRefOf typeRef :=
  eq_body (fun input => by rw [typeRef]) agree_typeRefOf

/-! ## Selection sets -/

theorem agree_fieldOf {r s : Rule SelectionSet} (h : AgreeBelow n r s) :
    AgreeBelow n (fieldOf r) (fieldOf s) :=
  .bind_right sound_name fun _ => .bind_right (sound_optional sound_renamed) fun _ =>
    .bind_right sound_arguments fun _ => .bind_right sound_directives fun _ =>
    .bind h.optional fun _ _ => rfl

theorem agree_inlineFragmentOf {r s : Rule SelectionSet} (h : AgreeBelow n r s) :
    AgreeBelow n (inlineFragmentOf r) (inlineFragmentOf s) :=
  (AgreeBelow.token_bind fun _ => .bind_right (sound_optional sound_condition) fun _ =>
    .bind_right sound_directives fun _ => .bind h fun _ _ => rfl).mono (Nat.le_succ n)

theorem agree_selectionOf {r s : Rule SelectionSet} (h : AgreeBelow n r s) :
    AgreeBelow n (selectionOf r) (selectionOf s) :=
  (AgreeBelow.refl n _).orElse <|
    (AgreeBelow.bind (agree_inlineFragmentOf h) fun _ _ => rfl).attempt.orElse
      (AgreeBelow.bind (agree_fieldOf h) fun _ _ => rfl).attempt.expecting

theorem agree_selectionSetOf {r s : Rule SelectionSet} (hr : Sound r SelectionSetPhrase)
    (h : AgreeBelow n r s) : AgreeBelow (n + 1) (selectionSetOf r) (selectionSetOf s) :=
  .token_bind fun _ =>
    .bind ((agree_selectionOf h).many1 (sound_selectionOf hr)) fun _ _ => rfl

theorem selectionSet_eq : selectionSet = selectionSetOf selectionSet :=
  eq_body (fun input => by rw [selectionSet]) (agree_selectionSetOf sound_selectionSet)

end QueryDoc.Rule
