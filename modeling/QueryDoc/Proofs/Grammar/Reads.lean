import QueryDoc.Grammar.Rule

/-! What rules read, apart from the setbacks on their way. `Reads` and `Misses`
say how a rule ends; there is one law for each way to build a rule, and later
modules open rules by these laws only. -/
namespace QueryDoc.Rule

variable {α β : Type} {input rest : List Token}

/-- A rule reads a result from the front of some terminals and leaves the rest. -/
def Reads (r : Rule α) (input : List Token) (a : α) (rest : List Token) : Prop :=
  (r input).result = .ok (a, rest)

/-- A rule fails on some terminals. -/
def Misses (r : Rule α) (input : List Token) : Prop :=
  ∃ kind, (r input).result = .error kind

theorem Reads.unique {r : Rule α} {a b : α} {rest' : List Token}
    (h : Reads r input a rest) (h' : Reads r input b rest') : a = b ∧ rest = rest' := by
  rw [Reads] at h h'
  rw [h] at h'
  simpa using h'

theorem Reads.not_misses {r : Rule α} {a : α} (h : Reads r input a rest) :
    ¬ Misses r input := by
  intro hx
  obtain ⟨kind, hk⟩ := hx
  rw [Reads, hk] at h
  cases h

theorem reads_or_misses (r : Rule α) (input : List Token) :
    (∃ a rest, Reads r input a rest) ∨ Misses r input := by
  cases hr : (r input).result with
  | ok p => exact .inl ⟨p.1, p.2, hr⟩
  | error kind => exact .inr ⟨kind, hr⟩

theorem misses_of_not_reads {r : Rule α} (h : ∀ a rest, ¬ Reads r input a rest) :
    Misses r input := by
  rcases reads_or_misses r input with ⟨a, rest, hr⟩ | hm
  · exact absurd hr (h a rest)
  · exact hm

/-! ## Sequences -/

@[simp] theorem reads_pure {a b : α} :
    Reads (pure a) input b rest ↔ b = a ∧ rest = input := by
  show Except.ok (a, input) = Except.ok (b, rest) ↔ _
  simp [eq_comm]

@[simp] theorem reads_return {a b : α} :
    Reads (Pure.pure a) input b rest ↔ b = a ∧ rest = input := reads_pure

theorem Reads.bind_result {r : Rule α} {f : α → Rule β} {a : α}
    (h : Reads r input a rest) : ((r >>= f) input).result = (f a rest).result := by
  show (Rule.bind r f input).result = _
  rw [Reads] at h
  simp only [Rule.bind]
  rw [h]

theorem Misses.bind {r : Rule α} {f : α → Rule β} (h : Misses r input) :
    Misses (r >>= f) input := by
  obtain ⟨kind, hk⟩ := h
  refine ⟨kind, ?_⟩
  show (Rule.bind r f input).result = _
  simp only [Rule.bind]
  rw [hk]

@[simp] theorem reads_bind {r : Rule α} {f : α → Rule β} {b : β} :
    Reads (r >>= f) input b rest ↔
      ∃ a mid, Reads r input a mid ∧ Reads (f a) mid b rest := by
  constructor
  · intro h
    rcases reads_or_misses r input with ⟨a, mid, hr⟩ | hm
    · exact ⟨a, mid, hr, by rw [Reads, ← hr.bind_result]; exact h⟩
    · exact absurd hm.bind h.not_misses
  · intro hx
    obtain ⟨a, mid, hr, hf⟩ := hx
    rw [Reads, hr.bind_result]
    exact hf

theorem Reads.bind {r : Rule α} {f : α → Rule β} {a : α} {b : β} {mid : List Token}
    (h : Reads r input a mid) (hf : Reads (f a) mid b rest) : Reads (r >>= f) input b rest :=
  reads_bind.mpr ⟨a, mid, h, hf⟩

/-- A sequence fails in its first part, or in its second part on what the first one leaves. -/
theorem misses_bind {r : Rule α} {f : α → Rule β} :
    Misses (r >>= f) input ↔
      Misses r input ∨ ∃ a mid, Reads r input a mid ∧ Misses (f a) mid := by
  constructor
  · intro h
    rcases reads_or_misses r input with ⟨a, mid, hread⟩ | hmiss
    · refine .inr ⟨a, mid, hread, misses_of_not_reads fun b rest hsecond => ?_⟩
      exact (hread.bind hsecond).not_misses h
    · exact .inl hmiss
  · intro h
    rcases h with hmiss | ⟨a, mid, hread, kind, hsecond⟩
    · exact hmiss.bind
    · exact ⟨kind, hread.bind_result.trans hsecond⟩

theorem reads_self {a : α} : Reads (Pure.pure a) input a input := reads_pure.mpr ⟨rfl, rfl⟩

/-! ## Terminals -/

@[simp] theorem not_reads_fail {kind : Kind} {a : α} : ¬ Reads (fail kind) input a rest := by
  simp [Reads, fail]

@[simp] theorem reads_terminal {kind : Kind} {accept : Token → Option α} {a : α} :
    Reads (terminal kind accept) input a rest ↔
      ∃ t, input = t :: rest ∧ accept t = some a := by
  cases input with
  | nil => simp [Reads, terminal]
  | cons t ts =>
    cases h : accept t with
    | none =>
      simp only [Reads, terminal, h, reduceCtorEq, false_iff, not_exists, not_and]
      intro t' heq ht
      cases heq
      simp [h] at ht
    | some b =>
      simp only [Reads, terminal, h, Except.ok.injEq, Prod.mk.injEq]
      constructor
      · intro hx
        obtain ⟨rfl, rfl⟩ := hx
        exact ⟨t, rfl, h⟩
      · intro hx
        obtain ⟨t', heq, ht⟩ := hx
        cases heq
        rw [h] at ht
        exact ⟨Option.some.inj ht, rfl⟩

@[simp] theorem reads_token {t : Token} {kind : Kind} {u : Unit} :
    Reads (token t kind) input u rest ↔ input = t :: rest := by
  simp [token]

@[simp] theorem reads_keyword {word : String} {kind : Kind} {u : Unit} :
    Reads (keyword word kind) input u rest ↔ input = .name word :: rest := by
  simp [keyword]

theorem reads_token_cons {t : Token} {kind : Kind} : Reads (token t kind) (t :: rest) () rest :=
  reads_token.mpr rfl

theorem reads_keyword_cons {word : String} {kind : Kind} :
    Reads (keyword word kind) (.name word :: rest) () rest :=
  reads_keyword.mpr rfl

@[simp] theorem misses_terminal_cons {kind : Kind} {accept : Token → Option α} {t : Token} :
    Misses (terminal kind accept) (t :: rest) ↔ accept t = none := by
  cases h : accept t <;> simp [Misses, terminal, h]

@[simp] theorem misses_token_cons {t u : Token} {kind : Kind} :
    Misses (token t kind) (u :: rest) ↔ u ≠ t := by
  simp [token]

@[simp] theorem misses_keyword_cons {word : String} {kind : Kind} {u : Token} :
    Misses (keyword word kind) (u :: rest) ↔ u ≠ .name word := by
  simp [keyword]

@[simp] theorem reads_finish {kind : Kind} {u : Unit} :
    Reads (finish kind) input u rest ↔ input = [] ∧ rest = [] := by
  cases input <;> simp [Reads, finish, eq_comm]

/-! ## Choices -/

@[simp] theorem reads_orElse {r s : Rule α} {a : α} :
    Reads (orElse r s) input a rest ↔
      Reads r input a rest ∨ Misses r input ∧ Reads s input a rest := by
  cases h : (r input).result <;> simp [Reads, Misses, orElse, h]

/-- A choice takes its first alternative. -/
theorem Reads.here {r s : Rule α} {a : α} (h : Reads r input a rest) :
    Reads (orElse r s) input a rest :=
  reads_orElse.mpr (.inl h)

/-- A choice passes over an alternative that fails. -/
theorem Reads.past {r s : Rule α} {a : α} (hm : Misses r input) (h : Reads s input a rest) :
    Reads (orElse r s) input a rest :=
  reads_orElse.mpr (.inr ⟨hm, h⟩)

@[simp] theorem misses_orElse {r s : Rule α} :
    Misses (orElse r s) input ↔ Misses r input ∧ Misses s input := by
  cases h : (r input).result <;> simp [Misses, orElse, h]

@[simp] theorem reads_attempt {r : Rule α} {a : α} :
    Reads (attempt r) input a rest ↔ Reads r input a rest := by
  cases h : (r input).result <;> simp [Reads, attempt, h]

@[simp] theorem misses_attempt {r : Rule α} : Misses (attempt r) input ↔ Misses r input := by
  cases h : (r input).result <;> simp [Misses, attempt, h]

@[simp] theorem reads_expecting {r : Rule α} {kind : Kind} {a : α} :
    Reads (expecting kind r) input a rest ↔ Reads r input a rest := by
  cases h : (r input).result <;> simp [Reads, expecting, h]

@[simp] theorem reads_notFollowedBy {r : Rule α} {kind : Kind} {u : Unit} :
    Reads (notFollowedBy kind r) input u rest ↔ rest = input ∧ Misses r input := by
  cases h : (r input).result <;> simp [Reads, Misses, notFollowedBy, h, eq_comm]

theorem reads_unless {r : Rule α} {kind : Kind} (h : Misses r input) :
    Reads (notFollowedBy kind r) input () input :=
  reads_notFollowedBy.mpr ⟨rfl, h⟩

@[simp] theorem reads_within {kind : Kind} {r : Rule α} {bound : List Token} {a : α} :
    Reads (within bound kind fun rest _ => r rest) input a rest ↔
      input.length < bound.length ∧ Reads r input a rest := by
  by_cases h : input.length < bound.length <;> simp [Reads, within, fail, h]

theorem misses_bind_pure {r : Rule α} {f : α → β} :
    Misses (r >>= fun a => pure (f a)) input ↔ Misses r input := by
  constructor
  · intro h
    rcases misses_bind.mp h with hmiss | ⟨a, mid, -, hlast⟩
    · exact hmiss
    · exact absurd hlast reads_self.not_misses
  · exact Misses.bind

@[simp] theorem reads_optional {r : Rule α} {o : Option α} :
    Reads (optional r) input o rest ↔
      (∃ a, o = some a ∧ Reads r input a rest) ∨
        Misses r input ∧ o = none ∧ rest = input := by
  simp only [optional, reads_orElse, reads_bind, reads_attempt, reads_pure, misses_bind_pure,
    misses_attempt]
  constructor
  · intro hx
    rcases hx with ⟨a, mid, hr, rfl, rfl⟩ | h
    · exact .inl ⟨a, rfl, hr⟩
    · exact .inr h
  · intro hx
    rcases hx with ⟨a, rfl, hr⟩ | h
    · exact .inl ⟨a, rest, hr, rfl, rfl⟩
    · exact .inr h

@[simp] theorem reads_takes {t : Token} {kind : Kind} {b : Bool} :
    Reads (takes t kind) input b rest ↔
      b = true ∧ input = t :: rest ∨
        b = false ∧ rest = input ∧ Misses (token t kind) input := by
  simp only [takes, reads_orElse, reads_bind, reads_token, reads_pure, misses_bind_pure]
  constructor
  · intro h
    rcases h with ⟨_, mid, rfl, rfl, rfl⟩ | ⟨hm, rfl, rfl⟩
    · exact .inl ⟨rfl, rfl⟩
    · exact .inr ⟨rfl, rfl, hm⟩
  · intro h
    rcases h with ⟨rfl, rfl⟩ | ⟨rfl, rfl, hm⟩
    · exact .inl ⟨(), rest, rfl, rfl, rfl⟩
    · exact .inr ⟨hm, rfl, rfl⟩

/-! ## Repetitions -/

theorem many_none {r : Rule α} (h : Misses r input) : Reads (many r) input [] input := by
  obtain ⟨kind, hk⟩ := h
  rw [Reads, many]
  simp [attempt, hk]

theorem many_some {r : Rule α} {mid : List Token} {a : α} {as : List α}
    (h : Reads r input a mid) (hlt : mid.length < input.length)
    (hs : Reads (many r) mid as rest) : Reads (many r) input (a :: as) rest := by
  rw [Reads] at h hs
  rw [Reads, many]
  simp [attempt, h, hlt, hs]

/-- How a repetition ends: at a miss, or after a part. The guard against a part
without terminals gives the last case. -/
theorem Reads.many_cases {r : Rule α} {as : List α} (h : Reads (many r) input as rest) :
    (Misses r input ∧ as = [] ∧ rest = input) ∨
      ∃ a mid, Reads r input a mid ∧
        ((mid.length < input.length ∧ ∃ bs, as = a :: bs ∧ Reads (many r) mid bs rest) ∨
          as = [a] ∧ rest = mid) := by
  rcases reads_or_misses r input with ⟨a, mid, hr⟩ | hm
  · right
    refine ⟨a, mid, hr, ?_⟩
    have hr' := hr
    rw [Reads] at hr'
    rw [Reads, many] at h
    -- The repetition goes on only past a part that took up a terminal.
    by_cases hlt : mid.length < input.length
    · left
      refine ⟨hlt, ?_⟩
      cases ho : (many r mid).result with
      | ok p =>
        obtain ⟨bs, rest'⟩ := p
        simp only [attempt, hr', hlt, if_true, ho, Except.ok.injEq, Prod.mk.injEq] at h
        obtain ⟨rfl, rfl⟩ := h
        exact ⟨bs, rfl, ho⟩
      | error kind => simp [attempt, hr', hlt, ho] at h
    · right
      simp only [attempt, hr', hlt, if_false, Except.ok.injEq, Prod.mk.injEq] at h
      exact ⟨h.1.symm, h.2.symm⟩
  · left
    have := h.unique (many_none hm)
    exact ⟨hm, this.1, this.2⟩

@[simp] theorem reads_many1 {r : Rule α} {as : List α} :
    Reads (many1 r) input as rest ↔
      ∃ a mid bs, Reads r input a mid ∧ Reads (many r) mid bs rest ∧ as = a :: bs := by
  simp only [many1, reads_bind, reads_attempt, reads_return]
  constructor
  · intro h
    obtain ⟨a, mid, hr, bs, rest', hs, rfl, rfl⟩ := h
    exact ⟨a, mid, bs, hr, hs, rfl⟩
  · intro h
    obtain ⟨a, mid, bs, hr, hs, rfl⟩ := h
    exact ⟨a, mid, hr, bs, rest, hs, rfl, rfl⟩

end QueryDoc.Rule
