import QueryDoc.Proofs.Lexical.Cut
import QueryDoc.Proofs.Print.RoundTrip

/-! Source texts one after another, each on lines of its own. A document ends in a brace, so its
terminals are scanned as they were whatever follows on the next line, and the terminals of what
follows are scanned as if nothing came before them. Definitions may be followed by further
definitions; a selection set that is a document of its own may neither follow nor be followed. -/
namespace QueryDoc
open Lexer Phrase Rule

/-! ## Terminals of two texts -/

theorem Lexer.afterSigil_last {ts : List Token} {t : Token} (h : [t] <:+ ts) (b : Bool) :
    afterSigil b ts = t.isSigil := by
  obtain ⟨us, rfl⟩ := h
  induction us generalizing b with
  | nil => rfl
  | cons u us ih => exact ih u.isSigil

/-- A line feed between two texts keeps their terminals apart, unless a sigil comes before it. -/
theorem lex_joined {s t : String} (hv : Token.invalid ∉ (lex s).map (·.token))
    (hs : afterSigil false ((lex s).map (·.token)) = false) :
    (lex (s ++ "\n" ++ t)).map (·.token) = (lex s).map (·.token) ++ (lex t).map (·.token) := by
  obtain ⟨before, hcut⟩ := cut_lex (List.append_nil (lex s)).symm hv
  have hbefore : s.toList = before := by
    have hsplit := hcut.split
    rwa [placeOf, List.append_nil] at hsplit
  have hjoined : (s ++ "\n" ++ t).toList = before ++ '\n' :: t.toList := by
    rw [String.toList_append, String.toList_append, hbefore, List.append_assoc]
    rfl
  have hline : lexFrom false ('\n' :: t.toList) = lexFrom false t.toList :=
    lexFrom_congr (skip_ignored (.blank rfl (.none _)))
  rw [lex, hjoined, hcut.resume _ fun _ => ⟨_, rfl⟩, hs, hline]
  rfl

/-! ## The last terminal of a document -/

/-- A phrase whose last terminal is always the same. -/
def Phrase.EndsIn {α : Type} (p : Phrase α) (t : Token) : Prop := ∀ ⦃ts a⦄, p ts a → [t] <:+ ts

theorem endsIn_selectionSet : EndsIn SelectionSetPhrase .braceR := by
  intro ts s h
  obtain ⟨-, -⟩ := h
  exact List.suffix_append ..

theorem endsIn_definition : EndsIn DefinitionPhrase .braceR := by
  intro ts d h
  rcases h with ho | hf
  · obtain ⟨-, -, -, -, hset⟩ := ho
    iterate 4 apply List.suffix_append_of_suffix
    exact endsIn_selectionSet hset
  · obtain @⟨text, ts, us, vs, _, _, _, -, -, -, hset⟩ := hf
    have hlast : [.braceR] <:+ ts ++ (us ++ vs) :=
      List.suffix_append_of_suffix (List.suffix_append_of_suffix (endsIn_selectionSet hset))
    exact hlast.trans (List.suffix_append [Token.name "fragment", .name text] _)

theorem Phrase.EndsIn.many {α : Type} {p : Phrase α} {t : Token} (hp : EndsIn p t)
    {ts : List Token} {as : List α} (h : Many p ts as) (hne : as ≠ []) : [t] <:+ ts := by
  induction h with
  | nil => exact absurd rfl hne
  | @cons ts us a as ha has ih =>
    cases as with
    | nil =>
      cases has
      rw [List.append_nil]
      exact hp ha
    | cons b bs => exact List.suffix_append_of_suffix (ih (List.cons_ne_nil b bs))

theorem endsIn_document : EndsIn DocumentPhrase .braceR := by
  intro ts d h
  rcases h with hs | ⟨hds, hne⟩
  · exact endsIn_selectionSet hs
  · exact endsIn_definition.many hds hne

/-! ## Documents one after another -/

theorem Phrase.Many.append {α : Type} {p : Phrase α} {ts us : List Token} {as bs : List α}
    (h : Many p ts as) (h' : Many p us bs) : Many p (ts ++ us) (as ++ bs) := by
  induction h with
  | nil => exact h'
  | cons ha _ ih =>
    rw [List.append_assoc]
    exact .cons ha ih

/-- A source text that is a selection set and nothing else. -/
def IsSelectionSet (source : String) : Prop := ∃ n, Entry.selectionSet.parse source = .ok n

theorem isSelectionSet_iff {source : String} :
    IsSelectionSet source ↔ ∃ s, SelectionSetPhrase ((lex source).map (·.token)) s := by
  constructor
  · intro hx
    obtain ⟨n, hn⟩ := hx
    obtain ⟨s, hs, -⟩ := Entry.parse_iff_phrase.mp hn
    exact ⟨s, hs⟩
  · intro hx
    obtain ⟨s, hs⟩ := hx
    exact ⟨_, Entry.parse_iff_phrase.mpr ⟨s, hs, rfl⟩⟩

theorem definitions_of_document {source : String} {d : Document}
    (h : DocumentPhrase ((lex source).map (·.token)) d) (hs : ¬ IsSelectionSet source) :
    Many DefinitionPhrase ((lex source).map (·.token)) d.definitions ∧ d.definitions ≠ [] := by
  rw [isSelectionSet_iff] at hs
  cases h with
  | shorthand hset => exact absurd ⟨_, hset⟩ hs
  | definitions hds hne => exact ⟨hds, hne⟩

/-- The terminals of a document on the lines before another text. -/
theorem lex_document_joined {s : String} {d : Document}
    (h : DocumentPhrase ((lex s).map (·.token)) d) (t : String) :
    (lex (s ++ "\n" ++ t)).map (·.token) = (lex s).map (·.token) ++ (lex t).map (·.token) :=
  lex_joined (proper_document h) (afterSigil_last (endsIn_document h) false)

/-- The terminals of two documents are none of a document if one of them is a selection set
alone. -/
theorem not_document_joined {s t : String} {d e x : Document}
    (hs : DocumentPhrase ((lex s).map (·.token)) d) (ht : DocumentPhrase ((lex t).map (·.token)) e)
    (hset : IsSelectionSet s ∨ IsSelectionSet t) :
    ¬ DocumentPhrase ((lex s).map (·.token) ++ (lex t).map (·.token)) x := by
  by_cases hs' : IsSelectionSet s
  · obtain ⟨set, hset⟩ := isSelectionSet_iff.mp hs'
    have hne : (lex t).map (·.token) ≠ [] := (endsIn_document ht).ne_nil (List.cons_ne_nil _ _)
    exact not_document_after hset hne
  · obtain ⟨hds, hne⟩ := definitions_of_document hs hs'
    obtain ⟨set, hset⟩ := isSelectionSet_iff.mp (hset.resolve_left hs')
    rw [← List.append_nil ((lex t).map (·.token))]
    exact not_document_before hds hne hset []

/-- Two documents, each on lines of its own, are one document with the definitions of both, if
neither of them is a selection set alone; otherwise they are none. -/
theorem parse_joined {s t : String} {d e : Document} (hs : Production.document.parse s = .ok d)
    (ht : Production.document.parse t = .ok e) :
    (¬ IsSelectionSet s → ¬ IsSelectionSet t →
      Production.document.parse (s ++ "\n" ++ t) = .ok ⟨d.definitions ++ e.definitions⟩) ∧
    (IsSelectionSet s ∨ IsSelectionSet t →
      ∃ failure, Production.document.parse (s ++ "\n" ++ t) = .error failure) := by
  rw [parse_document] at hs ht
  constructor
  · intro hs' ht'
    obtain ⟨hds, hne⟩ := definitions_of_document hs hs'
    obtain ⟨hes, -⟩ := definitions_of_document ht ht'
    rw [parse_document, lex_document_joined hs]
    exact .definitions (hds.append hes) (List.append_ne_nil_of_left_ne_nil hne _)
  · intro hset
    cases hparse : Production.document.parse (s ++ "\n" ++ t) with
    | error failure => exact ⟨failure, rfl⟩
    | ok x =>
      rw [parse_document, lex_document_joined hs] at hparse
      exact absurd hparse (not_document_joined hs ht hset)

/-- A query and a fragment, each for one field. -/
def leafQuery : Definition := .operation ⟨.query, some ⟨"Q"⟩, [], [], ⟨[.field (.leaf ⟨"a"⟩)]⟩⟩

def leafFragment : Definition := .fragment ⟨⟨"F"⟩, ⟨⟨"T"⟩⟩, [], ⟨[.field (.leaf ⟨"b"⟩)]⟩⟩

/-- The comment at the end of the query does not reach to the fragment. -/
theorem parse_joined_comment :
    Production.document.parse "query Q \x7b a \x7d # end" = .ok ⟨[leafQuery]⟩ ∧
      Production.document.parse "fragment F on T \x7b b \x7d" = .ok ⟨[leafFragment]⟩ ∧
      Production.document.parse ("query Q \x7b a \x7d # end" ++ "\n" ++
        "fragment F on T \x7b b \x7d") = .ok ⟨[leafQuery, leafFragment]⟩ ∧
      ∃ failure, Production.document.parse ("query Q \x7b a \x7d # end" ++ "\n" ++ "\x7b a \x7d") =
        .error failure := by
  have hquery : Production.document.parse "query Q \x7b a \x7d # end" = .ok ⟨[leafQuery]⟩ :=
    ok_of_toOption (by decide +kernel)
  have hfragment : Production.document.parse "fragment F on T \x7b b \x7d" =
      .ok ⟨[leafFragment]⟩ := ok_of_toOption (by decide +kernel)
  have hset : Production.document.parse "\x7b a \x7d" =
      .ok ⟨[.operation (.ofSelectionSet ⟨[.field (.leaf ⟨"a"⟩)]⟩)]⟩ :=
    ok_of_toOption (by decide +kernel)
  have hbare : IsSelectionSet "\x7b a \x7d" :=
    ⟨.selectionSet ⟨[.field (.leaf ⟨"a"⟩)]⟩, ok_of_toOption (by decide +kernel)⟩
  have hnone : ∀ source, (Entry.selectionSet.parse source).toOption = none →
      ¬ IsSelectionSet source := by
    rintro source h ⟨n, hn⟩
    rw [hn] at h
    cases h
  refine ⟨hquery, hfragment, ?_, ?_⟩
  · exact (parse_joined hquery hfragment).1 (hnone _ (by decide +kernel))
      (hnone _ (by decide +kernel))
  · exact (parse_joined hquery hset).2 (.inr hbare)

end QueryDoc
