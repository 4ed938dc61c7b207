import QueryDoc.Proofs.Grammar.Wellformed
import QueryDoc.Proofs.Print.Strings

/-! Checked names. The checks that a name passes before a tree is built from it by hand accept
just the texts that are read as a name, or as an enum value, with that very text: nothing may
stand around it. As names and enum values are printed as they are, these are also the ones that
are read back from their print. -/
namespace QueryDoc
open Lexer

/-! ## What the checks accept -/

namespace Name
variable {text : String}

theorem isOk_check : (check text).isOk = true ↔ Name.Valid ⟨text⟩ := by
  rw [check, Name.Valid]
  split <;> simp_all [Except.isOk, Except.toBool]

theorem isOk_checkEnum : (checkEnum text).isOk = true ↔ (Value.enum text).Valid := by
  rw [checkEnum, Value.Valid, ← isOk_check]
  by_cases hreserved : text ∈ reserved
  · rw [if_pos hreserved]
    exact iff_of_false Bool.false_ne_true fun h => h.2 hreserved
  · rw [if_neg hreserved]
    exact (and_iff_left hreserved).symm

theorem spells_of_valid (h : Name.Valid ⟨text⟩) : Spells text.toList (.name text) := by
  have hspells : Spells text.toList (.name (String.ofList text.toList)) := .name h
  rwa [String.ofList_toList] at hspells

theorem valid_of_spells {word : List Char} (h : Spells word (.name text)) :
    Name.Valid ⟨text⟩ := by
  cases h with
  | name hname => rwa [Name.Valid, String.toList_ofList]

/-- A text passes the check just where the terminal at its start is a name that takes up all of
it. -/
theorem isOk_check_iff_scan :
    (check text).isOk = true ↔ scan text.toList = some (.name text, []) := by
  rw [isOk_check]
  constructor
  · intro h
    have hscan := scan_exact (spells_of_valid h) (.nil _)
    rwa [List.append_nil] at hscan
  · intro h
    obtain ⟨word, -, hspells⟩ := (scan_iff.mp h).spelled
    exact valid_of_spells hspells

/-- A name is the only terminal of its text. -/
theorem lex_text (h : Name.Valid ⟨text⟩) : (lex text).map (·.token) = [.name text] := by
  have hlex := lex_spelled (spells_of_valid h) rfl
  rwa [String.ofList_toList] at hlex

end Name

/-! ## What is read -/

theorem print_name (n : Name) : (Node.name n).print = n.text := by
  have hchars : render ((Node.name n).pieces .default 0) = n.text.toList := List.append_nil _
  rw [Node.print, Node.printWith, Node.printAt, hchars, String.ofList_toList]

theorem print_enum (text : String) : (Node.value (.enum text)).print = text :=
  print_name ⟨text⟩

theorem parse_name_self {text : String} :
    Entry.name.parse text = .ok (.name ⟨text⟩) ↔ Name.Valid ⟨text⟩ := by
  constructor
  · intro h
    exact Entry.valid_of_parse h
  · intro h
    rw [Entry.parse_iff_phrase, Name.lex_text h]
    exact ⟨⟨text⟩, .name text, rfl⟩

theorem parse_enum_self {text : String} :
    Entry.value.parse text = .ok (.value (.enum text)) ↔ (Value.enum text).Valid := by
  constructor
  · intro h
    exact Entry.valid_of_parse h
  · intro h
    rw [Entry.parse_iff_phrase, Name.lex_text h.1]
    exact ⟨.enum text, .enum h.2, rfl⟩

/-- The checks agree with what is read. A text is accepted as a name just where it is read as the
name that it spells, and as an enum value just where it is read as that value; these are also the
names and enum values that are read back from their print. -/
theorem check_iff_parse (text : String) :
    ((Name.check text).isOk = true ↔ Entry.name.parse text = .ok (.name ⟨text⟩)) ∧
      ((Name.checkEnum text).isOk = true ↔
        Entry.value.parse text = .ok (.value (.enum text))) ∧
      ((Name.check text).isOk = true ↔
        Entry.name.parse (Node.name ⟨text⟩).print = .ok (.name ⟨text⟩)) ∧
      ((Name.checkEnum text).isOk = true ↔
        Entry.value.parse (Node.value (.enum text)).print = .ok (.value (.enum text))) := by
  have hname : (Name.check text).isOk = true ↔ Entry.name.parse text = .ok (.name ⟨text⟩) :=
    Name.isOk_check.trans parse_name_self.symm
  have henum : (Name.checkEnum text).isOk = true ↔
      Entry.value.parse text = .ok (.value (.enum text)) :=
    Name.isOk_checkEnum.trans parse_enum_self.symm
  rw [print_name, print_enum]
  exact ⟨hname, henum, hname, henum⟩

/-- Blanks and comments around a name are ignored where it is read, and are no part of it. -/
example : (Name.check "a # b").isOk = false ∧
    (Entry.name.parse "a # b").toOption = some (.name ⟨"a"⟩) := by
  decide +kernel

end QueryDoc
