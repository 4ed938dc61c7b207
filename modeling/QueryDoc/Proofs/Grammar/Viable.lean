import QueryDoc.Proofs.Grammar.Soundness

/-! What was read before a miss is the beginning of a construct. Terminals are viable
where more of them complete a construct, and a rule probes viable terminals only: each
place where it misses a terminal, also in an alternative that it gives up and in a part
that it leaves out, comes after the beginning of some construct that it could have read.
One lemma for each rule, from those for its parts; a sequence is completed with the
shortest parts that there are. -/
namespace QueryDoc

/-- Terminals that are scanned from their own characters. -/
def Writable (ts : List Token) : Prop := ∀ t ∈ ts, Lexer.scan t.chars = some (t, [])

instance (ts : List Token) : Decidable (Writable ts) :=
  inferInstanceAs (Decidable (∀ t ∈ ts, Lexer.scan t.chars = some (t, [])))

theorem Writable.append {ts us : List Token} (ht : Writable ts) (hu : Writable us) :
    Writable (ts ++ us) :=
  List.forall_mem_append.mpr ⟨ht, hu⟩

/-- Terminals that more of them complete to a construct. -/
def Viable {α : Type} (p : Phrase α) (seen : List Token) : Prop :=
  ∃ more a, Writable more ∧ p (seen ++ more) a

namespace Viable

variable {α β : Type} {p : Phrase α} {q : Phrase β} {seen us ts : List Token}

theorem of_phrase {a : α} (h : p ts a) : Viable p ts :=
  ⟨[], a, by decide, by rwa [List.append_nil]⟩

/-- The beginning of viable terminals, if the others can be written. -/
theorem shorten (us : List Token) (h : Viable p (seen ++ us)) (hus : Writable us) :
    Viable p seen := by
  obtain ⟨more, a, hmore, ha⟩ := h
  exact ⟨us ++ more, a, hus.append hmore, by rwa [← List.append_assoc]⟩

/-- A viable part makes a construct viable that it completes together with a tail. -/
theorem into (h : Viable p us) (tail : List Token) (htail : Writable tail)
    (hq : ∀ ⦃more a⦄, p (us ++ more) a → ∃ ts, seen ++ (more ++ tail) = ts ∧ ∃ b, q ts b) :
    Viable q seen := by
  obtain ⟨more, a, hmore, ha⟩ := h
  obtain ⟨_, rfl, b, hb⟩ := hq ha
  exact ⟨more ++ tail, b, hmore.append htail, hb⟩

theorem imp (h : Viable p us) (hq : ∀ ⦃ts a⦄, p ts a → ∃ b, q ts b) : Viable q us :=
  h.into [] (by decide) fun more _ ha => ⟨us ++ more, by rw [List.append_nil], hq ha⟩

end Viable

namespace Rule
open Phrase

variable {α β : Type}

/-- A rule misses a terminal before some remaining ones, whether it fails by that or not. -/
def Stumbles (r : Rule α) (input rest : List Token) : Prop := .miss rest ∈ (r input).trail

/-! ## Where rules miss -/

section Stumbles
variable {r s : Rule α} {f : α → Rule β} {kind : Kind} {input rest : List Token}

@[simp] theorem stumbles_return {a : α} : ¬ Stumbles (Pure.pure a) input rest := nofun

@[simp] theorem stumbles_bind :
    Stumbles (r >>= f) input rest ↔
      Stumbles r input rest ∨ ∃ a mid, Reads r input a mid ∧ Stumbles (f a) mid rest := by
  show _ ∈ (Rule.bind r f input).trail ↔ _
  cases h : (r input).result with
  | error kind => simp [Rule.bind, Stumbles, Reads, h]
  | ok o =>
    obtain ⟨a, mid⟩ := o
    simp [Rule.bind, Stumbles, Reads, h, and_assoc]

theorem Stumbles.terminal {accept : Token → Option α}
    (h : Stumbles (terminal kind accept) input rest) : rest = input := by
  cases input with
  | nil => simpa [Stumbles, Rule.terminal] using h
  | cons t ts =>
    cases haccept : accept t with
    | none => simpa [Stumbles, Rule.terminal, haccept] using h
    | some a => simp [Stumbles, Rule.terminal, haccept] at h

theorem Stumbles.finish (h : Stumbles (finish kind) input rest) : rest = input := by
  cases input with
  | nil => simp [Stumbles, Rule.finish] at h
  | cons t ts => simpa [Stumbles, Rule.finish] using h

theorem Stumbles.orElse (h : Stumbles (orElse r s) input rest) :
    Stumbles r input rest ∨ Stumbles s input rest := by
  cases hr : (r input).result with
  | ok o =>
    simp only [Stumbles, Rule.orElse, hr] at h
    exact .inl h
  | error kind =>
    simp only [Stumbles, Rule.orElse, hr, List.mem_append] at h
    exact h

@[simp] theorem stumbles_attempt : Stumbles (attempt r) input rest ↔ Stumbles r input rest := by
  cases hr : (r input).result <;> simp [Stumbles, attempt, hr]

@[simp] theorem stumbles_expecting :
    Stumbles (expecting kind r) input rest ↔ Stumbles r input rest := by
  cases hr : (r input).result <;> simp [Stumbles, expecting, hr]

theorem Stumbles.notFollowedBy (h : Stumbles (notFollowedBy kind r) input rest) :
    Stumbles r input rest ∨ rest = input := by
  cases hr : (r input).result <;> simp [Stumbles, Rule.notFollowedBy, hr] at h ⊢
  · exact .inl h
  · exact h

/-- A repetition misses within one of its parts. -/
theorem Stumbles.many (h : Stumbles (many r) input rest) :
    Stumbles r input rest ∨ ∃ a mid, Reads r input a mid ∧ mid.length < input.length ∧
      Stumbles (many r) mid rest := by
  rw [Stumbles, Rule.many] at h
  cases hr : (r input).result with
  | error kind =>
    left
    simp only [attempt, hr, List.mem_append, List.mem_singleton, reduceCtorEq, or_false] at h
    exact h
  | ok o =>
    obtain ⟨a, mid⟩ := o
    by_cases hlt : mid.length < input.length
    · cases ho : (Rule.many r mid).result with
      | error kind =>
        simp only [attempt, hr, hlt, if_true, ho, List.mem_append] at h
        exact h.imp_right fun h => ⟨a, mid, hr, hlt, h⟩
      | ok o =>
        simp only [attempt, hr, hlt, if_true, ho, List.mem_append] at h
        exact h.imp_right fun h => ⟨a, mid, hr, hlt, h⟩
    · simp only [attempt, hr, hlt, if_false] at h
      exact .inl h

end Stumbles

/-- Each miss of a rule comes after terminals that a test accepts. -/
def Probes (r : Rule α) (ok : List Token → Prop) : Prop :=
  ∀ ⦃input rest⦄, Stumbles r input rest → ∃ seen, input = seen ++ rest ∧ ok seen

namespace Probes

variable {r s : Rule α} {f : α → Rule β} {ok ok' : List Token → Prop} {p : Phrase α}
variable {kind : Kind} {t : Token}

theorem mono (h : Probes r ok) (hi : ∀ ⦃seen⦄, ok seen → ok' seen) : Probes r ok' := by
  intro input rest hm
  obtain ⟨seen, heq, hseen⟩ := h hm
  exact ⟨seen, heq, hi hseen⟩

theorem nothing {a : α} : Probes (Pure.pure a : Rule α) ok := fun _ _ => nofun

theorem fail : Probes (fail kind : Rule α) ok := fun _ _ => nofun

theorem terminal {accept : Token → Option α} (h : ok []) : Probes (terminal kind accept) ok :=
  fun _ _ hm => ⟨[], hm.terminal.symm, h⟩

theorem finish (h : ok []) : Probes (finish kind) ok := fun _ _ hm => ⟨[], hm.finish.symm, h⟩

/-- The second rule starts after what the first one has read. -/
theorem bind (hs : Sound r p) (hr : Probes r ok)
    (hf : ∀ ⦃us a⦄, p us a → Probes (f a) fun seen => ok (us ++ seen)) :
    Probes (r >>= f) ok := by
  intro input rest hm
  rcases stumbles_bind.mp hm with hfirst | ⟨a, mid, hread, hsecond⟩
  · exact hr hfirst
  · obtain ⟨us, rfl, hus⟩ := hs hread
    obtain ⟨seen, rfl, hseen⟩ := hf hus hsecond
    exact ⟨us ++ seen, (List.append_assoc ..).symm, hseen⟩

theorem map (hr : Probes r ok) (g : α → β) : Probes (r >>= fun a => Pure.pure (g a)) ok := by
  intro input rest hm
  rcases stumbles_bind.mp hm with hfirst | ⟨a, mid, -, hsecond⟩
  · exact hr hfirst
  · exact absurd hsecond stumbles_return

theorem token (h : ok []) : Probes (token t kind) ok := terminal h

theorem keyword {word : String} (h : ok []) : Probes (keyword word kind) ok := terminal h

/-- A rule after a given terminal. -/
theorem token_bind {f : Unit → Rule β} (h : ok []) (hf : Probes (f ()) fun seen => ok (t :: seen)) :
    Probes (Rule.token t kind >>= f) ok := by
  intro input rest hm
  rcases stumbles_bind.mp hm with hfirst | ⟨_, mid, hread, hsecond⟩
  · exact token h hfirst
  · obtain rfl := reads_token.mp hread
    obtain ⟨seen, rfl, hseen⟩ := hf hsecond
    exact ⟨t :: seen, rfl, hseen⟩

theorem keyword_bind {word : String} {f : Unit → Rule β} (h : ok [])
    (hf : Probes (f ()) fun seen => ok (.name word :: seen)) :
    Probes (Rule.keyword word kind >>= f) ok := token_bind h hf

theorem name (h : ok []) : Probes name ok := terminal h

/-- A rule after a name. -/
theorem name_bind {f : Name → Rule β} (h : ok [])
    (hf : ∀ text, Probes (f ⟨text⟩) fun seen => ok (.name text :: seen)) :
    Probes (Rule.name >>= f) ok := by
  refine bind sound_name (name h) ?_
  rintro _ _ ⟨text⟩
  exact hf text

/-- A rule after a name that is not the word `on`. -/
theorem name_not_on_bind {f : Name → Rule β} (h : ok [])
    (hf : ∀ text, text ≠ "on" → Probes (f ⟨text⟩) fun seen => ok (.name text :: seen)) :
    Probes (do notFollowedBy kind (Rule.keyword "on" kind); f (← Rule.name)) ok := by
  intro input rest hm
  rcases stumbles_bind.mp hm with hcheck | ⟨_, mid, hread, hrest⟩
  · rcases hcheck.notFollowedBy with hword | rfl
    · exact keyword h hword
    · exact ⟨[], rfl, h⟩
  · obtain ⟨rfl, hon⟩ := reads_notFollowedBy.mp hread
    rcases stumbles_bind.mp hrest with hword | ⟨n, mid', hname, hlater⟩
    · exact name h hword
    · obtain ⟨text, hne, rfl, rfl⟩ := name_not_on hon hname
      obtain ⟨seen, rfl, hseen⟩ := hf text hne hlater
      exact ⟨.name text :: seen, rfl, hseen⟩

/-! ## Choices and repetitions -/

theorem orElse (hr : Probes r ok) (hs : Probes s ok) : Probes (orElse r s) ok := by
  intro input rest hm
  rcases hm.orElse with hm | hm
  · exact hr hm
  · exact hs hm

theorem attempt (hr : Probes r ok) : Probes (attempt r) ok :=
  fun _ _ hm => hr (stumbles_attempt.mp hm)

theorem expecting (hr : Probes r ok) : Probes (expecting kind r) ok :=
  fun _ _ hm => hr (stumbles_expecting.mp hm)

theorem optional (hr : Probes r ok) : Probes (optional r) ok :=
  orElse (map hr.attempt some) .nothing

theorem takes (h : ok []) : Probes (takes t kind) ok := orElse (map (token h) fun _ => true) .nothing

theorem many (hs : Sound r p) (hr : Probes r (Viable p)) : Probes (many r) (Viable (Many p)) := by
  intro input
  induction hn : input.length using Nat.strongRecOn generalizing input with
  | _ n ih =>
    intro rest hm
    rcases hm.many with hfirst | ⟨a, mid, hread, hlt, hothers⟩
    · obtain ⟨seen, heq, hseen⟩ := hr hfirst
      exact ⟨seen, heq, hseen.imp fun ts a ha => ⟨[a], by simpa using Many.cons ha .nil⟩⟩
    · obtain ⟨us, rfl, hus⟩ := hs hread
      obtain ⟨seen, rfl, hseen⟩ := ih mid.length (hn ▸ hlt) rfl hothers
      refine ⟨us ++ seen, (List.append_assoc ..).symm, ?_⟩
      exact hseen.into [] (by decide) fun more as has => ⟨_, by simp, _, .cons hus has⟩

theorem many1 (hs : Sound r p) (hr : Probes r (Viable p)) :
    Probes (many1 r) (Viable fun ts as => Many p ts as ∧ as ≠ []) := by
  refine bind (fun _ _ _ h => hs (reads_attempt.mp h)) (hr.attempt.mono ?_) ?_
  · exact fun seen h => h.imp fun ts a ha =>
      ⟨[a], by simpa using Many.cons ha .nil, List.cons_ne_nil _ _⟩
  · intro us a hus
    refine (map (many hs hr) (a :: ·)).mono fun seen h => ?_
    exact h.into [] (by decide) fun more as has =>
      ⟨_, by simp, _, .cons hus has, List.cons_ne_nil _ _⟩

/-- Parts between two terminals. -/
theorem enclosed {close : Token} {kind' : Kind} {g : α → β} (hs : Sound r p)
    (hr : Probes r (Viable p)) (h : ok []) (hok : ∀ ⦃seen⦄, Viable p seen → ok (t :: seen)) :
    Probes (do
      Rule.token t kind
      let a ← r
      Rule.token close kind'
      return g a) ok := by
  refine token_bind h (bind hs (hr.mono hok) fun us a hus => map (token ?_) _)
  rw [List.append_nil]
  exact hok (.of_phrase hus)

theorem group (hs : Sound r p) (hr : Probes r (Viable p)) :
    Probes (Rule.group kind r) (Viable (Group p)) := by
  refine map (optional (enclosed (sound_many1 hs) (many1 hs hr) (.of_phrase .none) ?_)) _
  intro seen h
  exact h.into [.parenR] (by decide) fun more as has => ⟨_, by simp, _, .some has.1 has.2⟩

theorem within {bound : List Token}
    (hr : ∀ ⦃input rest⦄, input.length < bound.length → Stumbles r input rest →
      ∃ seen, input = seen ++ rest ∧ ok seen) :
    Probes (within bound kind fun rest _ => r rest) ok := by
  intro input rest hm
  by_cases hlt : input.length < bound.length
  · rw [Stumbles, Rule.within, dif_pos hlt] at hm
    exact hr hlt hm
  · rw [Stumbles, Rule.within, dif_neg hlt] at hm
    cases hm

/-- A rule that calls itself on shorter inputs only misses where its body does around a rule
that misses there. -/
theorem recursive {r : Rule α} {p : Phrase α} {body : Rule α → Rule α}
    (hr : ∀ input, r input = body (Rule.within input kind fun rest _ => r rest) input)
    (hs : Sound r p) (hb : ∀ {s : Rule α}, Sound s p → Probes s ok → Probes (body s) ok) :
    Probes r ok := by
  intro input
  induction hn : input.length using Nat.strongRecOn generalizing input with
  | _ n ih =>
    intro rest hm
    rw [Stumbles, hr] at hm
    exact hb (sound_within fun _ h => hs h) (.within fun _ _ hlt h => ih _ (hn ▸ hlt) rfl h) hm

end Probes
end Rule
end QueryDoc
