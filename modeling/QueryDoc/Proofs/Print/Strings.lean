import QueryDoc.Proofs.Print.Reparse

/-! String literals and what they hold. A printed string is read back with the content that it
was printed for, whatever that is, as a block just where it was one and can stand in one. A
string on one line is read as the characters that it spells, whichever spelling is chosen for
each of them. -/
namespace QueryDoc

/-! ## Printed strings -/

/-- A string literal carries any content. It is read back as a block just where it was one and
its content ends neither in a quote nor in a backslash. -/
theorem parse_print_string (content : String) (block : Bool) :
    ∃ block', Entry.value.parse (Node.value (.string content block)).print =
        .ok (.value (.string content block')) ∧
      (block' = true ↔ block = true ∧ content.toList.getLast? ≠ some '"' ∧
        content.toList.getLast? ≠ some '\\') := by
  have hlong : ¬ Entry.value.TooShort (.value (.string content block)) := by
    rintro (⟨he | he, -⟩ | ⟨he, -⟩) <;> cases he
  refine ⟨block && Quoted.fitsBlock content.toList, ?_, ?_⟩
  · rw [← Value.fitted_string]
    exact parse_printAt_of_long .default 0 trivial ⟨.string content block, rfl⟩ hlong
  · rw [Bool.and_eq_true, Quoted.fitsBlock_iff]

/-! ## Spelled strings -/

/-- A text that is the spelling of a terminal has that terminal only. -/
theorem lex_spelled {word : List Char} {t : Token} (h : Spells word t) (hs : t.isSigil = false) :
    (Lexer.lex (String.ofList word)).map (·.token) = [t] := by
  have hstands : Stands word t [] := by
    have hscan := Lexer.scan_exact h (.nil _)
    rw [List.append_nil] at hscan
    exact Lexer.scan_iff.mp hscan
  have hwritten : Written word [t] := .spaced hstands (Token.isSigil_eq_false_iff.mp hs) (.none []) .nil
  refine (Lexer.lex_iff.mpr ⟨word, ?_, hwritten⟩).1
  rw [String.toList_ofList]
  exact .none word

/-- A string on one line is read as the characters that it spells, however each of them is
spelled. -/
theorem parse_spelled (text : String) (words : List (List Char))
    (h : List.Forall₂ Quoted.SpellsChar words text.toList) :
    Entry.stringValue.parse (String.ofList ('"' :: (words.flatten ++ ['"']))) =
      .ok (.value (.string text false)) := by
  have hspells : Spells ('"' :: (words.flatten ++ ['"'])) (.string text false) := by
    have hinside := Spells.string (Quoted.isInside_flatten h)
    rwa [Quoted.decode_flatten h, String.ofList_toList] at hinside
  rw [Entry.parse_iff_phrase, lex_spelled hspells rfl]
  exact ⟨.string text false, ⟨rfl, .string text false⟩, rfl⟩

/-- Spellings of a backslash, the letter of an escape, a slash, an accented letter and a
character outside of the basic plane. -/
def mixedSpelling : List (List Char) :=
  [['\\', '\\'], ['u'], ['\\', '/'], ['\\', 'u', '0', '0', 'e', '9'],
    ['\\', 'u', 'd', '8', '3', 'D', '\\', 'u', 'D', 'e', '0', '0']]

theorem parse_spelled_mixed :
    List.Forall₂ Quoted.SpellsChar mixedSpelling "\\u/é😀".toList ∧
      Entry.stringValue.parse "\"\\\\u\\/\\u00e9\\ud83D\\uDe00\"" =
        .ok (.value (.string "\\u/é😀" false)) := by
  have hlower : ∀ n < 16, Quoted.SpellsDigit n.digitChar n := fun n hn => ⟨hn, .inl rfl⟩
  have hupper : Quoted.SpellsDigit 'D' 13 := ⟨by decide, .inr rfl⟩
  have haccent : Quoted.SpellsUnit ['0', '0', 'e', '9'] 'é'.toNat :=
    .digits (hlower 0 (by decide)) (hlower 0 (by decide)) (hlower 14 (by decide))
      (hlower 9 (by decide))
  have hpair : Quoted.SpellsChar ['\\', 'u', 'd', '8', '3', 'D', '\\', 'u', 'D', 'e', '0', '0']
      '😀' := by
    have hhigh : 0xD800 + ('😀'.toNat - 0x10000) / 0x400 = 0xD83D := by decide
    have hlow : 0xDC00 + ('😀'.toNat - 0x10000) % 0x400 = 0xDE00 := by decide
    refine @Quoted.SpellsChar.pair ['d', '8', '3', 'D'] ['D', 'e', '0', '0'] '😀' (by decide) ?_ ?_
    · rw [hhigh]
      exact .digits (hlower 13 (by decide)) (hlower 8 (by decide)) (hlower 3 (by decide)) hupper
    · rw [hlow]
      exact .digits hupper (hlower 14 (by decide)) (hlower 0 (by decide)) (hlower 0 (by decide))
  have h : List.Forall₂ Quoted.SpellsChar mixedSpelling "\\u/é😀".toList :=
    .cons (.short (by decide)) (.cons (.itself (by decide) (by decide) (by decide) (by decide))
      (.cons (.short (by decide)) (.cons (.unit haccent) (.cons hpair .nil))))
  have hsource : String.ofList ('"' :: (mixedSpelling.flatten ++ ['"'])) =
      "\"\\\\u\\/\\u00e9\\ud83D\\uDe00\"" := by
    decide
  exact ⟨h, hsource ▸ parse_spelled _ _ h⟩

end QueryDoc
