import QueryDoc.Proofs.Grammar.Completeness
import QueryDoc.Proofs.Grammar.Proper
import QueryDoc.Proofs.Lexical.Texts

/-! Reading whole source texts. A text can be read as a construct just where it is
written out of terminals that the grammar derives, with the tree that it gives. -/
namespace QueryDoc
open Rule

theorem ok_of_toOption {ε α : Type} {e : Except ε α} {a : α} (h : e.toOption = some a) :
    e = .ok a := by
  cases e with
  | ok b => exact congrArg Except.ok (Option.some.inj h)
  | error _ => cases h

theorem error_of_toOption {ε α : Type} {e : Except ε α} (h : e.toOption = none) :
    ∃ err, e = .error err := by
  cases e with
  | ok a => cases h
  | error err => exact ⟨err, rfl⟩

namespace Production

variable {α : Type} {p : Production α}

/-- A whole text is read where the rule reads all of it. -/
theorem reads_whole {input rest : List Token} {a : α} :
    Reads p.whole input a rest ↔ Reads p.rule input a [] ∧ rest = [] := by
  simp only [whole, reads_attempt, reads_bind, reads_finish, reads_return]
  constructor
  · intro hx
    obtain ⟨b, mid, h, -, _, ⟨rfl, rfl⟩, rfl, rfl⟩ := hx
    exact ⟨h, rfl⟩
  · intro hx
    obtain ⟨h, rfl⟩ := hx
    exact ⟨a, [], h, (), [], ⟨rfl, rfl⟩, rfl, rfl⟩

theorem parse_ok {source : String} {a : α} :
    p.parse source = .ok a ↔ Reads p.rule ((Lexer.lex source).map (·.token)) a [] := by
  have hwhole : p.parse source = .ok a ↔
      ∃ rest, Reads p.whole ((Lexer.lex source).map (·.token)) a rest := by
    simp only [parse, Reads]
    cases (p.whole ((Lexer.lex source).map (·.token))).result with
    | ok o => simp [Prod.ext_iff]
    | error kind => simp
  rw [hwhole]
  simp only [reads_whole]
  constructor
  · intro hx
    obtain ⟨-, h, -⟩ := hx
    exact h
  · intro h
    exact ⟨[], h, rfl⟩

/-- A rule that is sound and complete for a phrase reads the texts whose terminals the phrase
derives. -/
theorem parse_iff_phrase {phrase : Phrase α} {follow : Token → Bool} (hs : Sound p.rule phrase)
    (hc : ∀ n, CompleteBelow n p.rule phrase follow) {source : String} {a : α} :
    p.parse source = .ok a ↔ phrase ((Lexer.lex source).map (·.token)) a := by
  rw [parse_ok]
  constructor
  · intro h
    obtain ⟨ts, hts, ha⟩ := hs h
    rw [List.append_nil] at hts
    rwa [hts]
  · intro h
    have hread := hc _ (Nat.lt_succ_self _) h (.nil follow)
    rwa [List.append_nil] at hread

/-- A rule that reads exactly the constructs of a phrase reads exactly the texts that
are written out of their terminals. -/
theorem parse_iff_written {phrase : Phrase α} (hp : phrase.Proper)
    (hr : ∀ {ts a}, Reads p.rule ts a [] ↔ phrase ts a) {source : String} {a : α} :
    p.parse source = .ok a ↔
      ∃ start ts, Ignored source.toList start ∧ Written start ts ∧ phrase ts a := by
  rw [parse_ok, hr]
  constructor
  · intro h
    obtain ⟨start, hi, hw⟩ := Lexer.lex_iff.mp ⟨rfl, hp h⟩
    exact ⟨start, _, hi, hw, h⟩
  · intro hx
    obtain ⟨start, ts, hi, hw, h⟩ := hx
    rwa [(Lexer.lex_iff.mpr ⟨start, hi, hw⟩).1]

end Production

/-- A text is read as a construct just where the grammar derives its terminals. -/
theorem Entry.parse_iff_phrase {e : Entry} {source : String} {n : Node} :
    e.parse source = .ok n ↔ e.phrase ((Lexer.lex source).map (·.token)) n :=
  Production.parse_ok.trans (reads_entry e)

/-- The parser accepts exactly its grammar, with the trees that it gives. -/
theorem parse_iff_grammar (source : String) :
    (∀ (e : Entry) (n : Node), e.parse source = .ok n ↔
      ∃ start ts, Ignored source.toList start ∧ Written start ts ∧ e.phrase ts n) ∧
    ∀ k : OperationKind, Production.operationKind.parse source = .ok k ↔
      ∃ start ts, Ignored source.toList start ∧ Written start ts ∧ OperationKindPhrase ts k := by
  constructor
  · intro e n
    exact Production.parse_iff_written (proper_entry e) (reads_entry e)
  · intro k
    refine Production.parse_iff_written proper_operationKind fun {ts k} => ⟨fun h => ?_, ?_⟩
    · obtain ⟨us, rfl, hus⟩ := sound_operationKind h
      rwa [List.append_nil]
    · intro hx
      obtain ⟨k⟩ := hx
      exact complete_operationKind k

end QueryDoc
