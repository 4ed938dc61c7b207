import QueryDoc.Proofs.Grammar.Wellformed
import QueryDoc.Proofs.Print.Reparse

/-! Reading a document, printing it and reading that. A document that was read is valid,
so it is read again as itself with its blocks fitted, unless one of several definitions
says no more than its selection set: that one is printed as such, and is then not read
beside the others. -/
namespace QueryDoc
open Rule Production

theorem parse_document {source : String} {d : Document} :
    Production.document.parse source = .ok d ↔
      DocumentPhrase ((Lexer.lex source).map (·.token)) d :=
  parse_iff_phrase sound_document fun _ => complete_document

/-- A document that was read can be written down. -/
theorem valid_of_parse {source : String} {d : Document}
    (h : Production.document.parse source = .ok d) : d.Valid :=
  keeps_document.of_parse proper_document sound_document h

/-- A document that was read is read again from its print, with its blocks fitted, if it
has one definition only or none that says no more than its selection set. -/
theorem parse_print_of_parse {source : String} {d : Document}
    (h : Production.document.parse source = .ok d)
    (hs : d.definitions.length = 1 ∨ ∀ x ∈ d.definitions, x.isShorthand = false) :
    Production.document.parse (Node.document d).print = .ok d.fitted := by
  have hv := valid_of_parse h
  have hlex : (Lexer.lex (Node.document d).print).map (·.token) =
      tokensOf (d.pieces .default 0) := lex_printAt .default 0 hv
  rw [parse_document, hlex]
  exact derives_document .default 0 hv hs

/-- A query for a field with a string that ends in quotes. -/
def quotedQuery (block : Bool) : Document :=
  ⟨[.operation (.ofSelectionSet
    ⟨[.field ⟨none, ⟨"a"⟩, [⟨⟨"b"⟩, .string "x\"\"\"" block⟩], [], none⟩]⟩)]⟩

/-- A block whose content ends in a quote is printed on one line. -/
theorem parse_print_of_parse_quote :
    Production.document.parse "\x7b a(b: \"\"\"x\\\"\"\"\"\"\") \x7d" = .ok (quotedQuery true) ∧
      Production.document.parse (Node.document (quotedQuery true)).print =
        .ok (quotedQuery false) :=
  have h : Production.document.parse "\x7b a(b: \"\"\"x\\\"\"\"\"\"\") \x7d" =
      .ok (quotedQuery true) := ok_of_toOption (by decide +kernel)
  ⟨h, parse_print_of_parse h (.inl rfl)⟩

/-- An anonymous query beside a named one. -/
def besideQuery : Document :=
  ⟨[.operation (.ofSelectionSet ⟨[.field (.leaf ⟨"a"⟩)]⟩),
    .operation ⟨.query, some ⟨"B"⟩, [], [], ⟨[.field (.leaf ⟨"b"⟩)]⟩⟩]⟩

/-- The print of a document is not always read back as that document: beside other
definitions an anonymous query is not read at all, and a block need not stay one. -/
theorem parse_print_not_always :
    (Production.document.parse "query \x7b a \x7d query B \x7b b \x7d" = .ok besideQuery ∧
        ∃ failure, Production.document.parse (Node.document besideQuery).print =
          .error failure) ∧
      Production.document.parse "\x7b a(b: \"\"\"x\\\"\"\"\"\"\") \x7d" = .ok (quotedQuery true) ∧
      Production.document.parse (Node.document (quotedQuery true)).print ≠
        .ok (quotedQuery true) := by
  refine ⟨⟨ok_of_toOption (by decide +kernel), ?_⟩, ok_of_toOption (by decide +kernel), ?_⟩
  · have hnone : (Production.document.parse (Node.document besideQuery).print).toOption = none := by
      decide +kernel
    cases h : Production.document.parse (Node.document besideQuery).print with
    | error failure => exact ⟨failure, rfl⟩
    | ok d =>
      rw [h] at hnone
      cases hnone
  · intro h
    exact absurd (congrArg Except.toOption h) (by decide +kernel)

end QueryDoc
