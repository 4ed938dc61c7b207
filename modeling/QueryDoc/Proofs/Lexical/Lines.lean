import QueryDoc.Proofs.Lexical.Munch

/-! Where lines end within a string. A string that is no block stays on its line but for line
ends that escapes take along: in all that is scanned of it, a line end stands only after an odd
number of backslashes. -/
namespace QueryDoc.Quoted

variable {c : Char} {cs before after inside : List Char}

/-! ## Backslashes at the end of a text -/

/-- How many backslashes a text ends in. -/
def trailingBackslashes (cs : List Char) : Nat := (cs.reverse.takeWhile (· == '\\')).length

/-- Whether a text ends in a backslash that is not itself taken along by another one, so that
it takes the next character along. -/
def TakesAlong (cs : List Char) : Prop := trailingBackslashes cs % 2 = 1

theorem trailingBackslashes_le (cs : List Char) : trailingBackslashes cs ≤ cs.length := by
  have h := (cs.reverse.takeWhile_sublist (· == '\\')).length_le
  rwa [List.length_reverse] at h

theorem trailingBackslashes_cons (c : Char) (cs : List Char) :
    trailingBackslashes (c :: cs) =
      if trailingBackslashes cs = cs.length ∧ c = '\\' then cs.length + 1
      else trailingBackslashes cs := by
  rw [trailingBackslashes, List.reverse_cons, List.takeWhile_append, List.length_reverse]
  by_cases hall : (cs.reverse.takeWhile (· == '\\')).length = cs.length
  · by_cases hc : c = '\\' <;> simp [hall, hc, trailingBackslashes]
  · simp [hall, trailingBackslashes]

theorem TakesAlong.cons (hc : c ≠ '\\') (h : TakesAlong cs) : TakesAlong (c :: cs) := by
  rw [TakesAlong, trailingBackslashes_cons, if_neg (fun hx => hc hx.2)]
  exact h

/-- An escape has no part in whether what follows it takes a character along. -/
theorem TakesAlong.escape (c : Char) (h : TakesAlong cs) : TakesAlong ('\\' :: c :: cs) := by
  have hle := trailingBackslashes_le cs
  rw [TakesAlong] at h ⊢
  rw [trailingBackslashes_cons, trailingBackslashes_cons, List.length_cons]
  by_cases hall : trailingBackslashes cs = cs.length ∧ c = '\\'
  · rw [if_pos hall, if_pos ⟨rfl, rfl⟩]
    omega
  · rw [if_neg hall, if_neg (by omega)]
    exact h

/-! ## Line ends -/

/-- Between the quotes of a string a line end is taken along by a backslash. -/
theorem IsInside.takesAlong (h : IsInside inside) (heq : inside = before ++ c :: after)
    (hc : endsLine c = true) : TakesAlong before := by
  induction h generalizing before with
  | nil => simp at heq
  | escape d _ ih =>
    match before with
    | [] =>
      injection heq with hx _
      subst hx
      cases hc
    | [b] =>
      injection heq with hx _
      subst hx
      rfl
    | b :: e :: more =>
      injection heq with hb heq
      injection heq with _ heq
      subst hb
      exact (ih heq).escape e
  | @plain d cs _ hs hn hr _ ih =>
    match before with
    | [] =>
      injection heq with hx _
      subst hx
      simp [endsLine, hn, hr] at hc
    | b :: more =>
      injection heq with hb heq
      subst hb
      exact (ih heq).cons hs

/-- A line end in the spelling of a string is one between its quotes. -/
theorem takesAlong_of_spells {word : List Char} {content : String}
    (h : Spells word (.string content false)) (heq : word = before ++ c :: after)
    (hc : endsLine c = true) : TakesAlong before := by
  have hquote : c ≠ '"' := by
    rintro rfl
    cases hc
  cases h with
  | @string inside hi =>
    match before with
    | [] =>
      injection heq with hx _
      exact absurd hx.symm hquote
    | b :: more =>
      injection heq with hb heq
      subst hb
      rcases List.eq_nil_or_concat after with rfl | ⟨after, x, rfl⟩
      · injection (List.append_inj' heq rfl).2 with hx _
        exact absurd hx.symm hquote
      · have hlast : inside ++ ['"'] = (more ++ c :: after) ++ [x] := by simpa using heq
        exact (hi.takesAlong (List.append_inj' hlast rfl).1 hc).cons (by decide)

/-- What takes a character along ends in a backslash. -/
theorem TakesAlong.exists_backslash (h : TakesAlong before) :
    ∃ more, before = more ++ ['\\'] := by
  rcases List.eq_nil_or_concat before with rfl | ⟨more, x, rfl⟩
  · cases h
  · refine ⟨more, ?_⟩
    by_cases hx : x = '\\'
    · rw [List.concat_eq_append, hx]
    · simp [TakesAlong, trailingBackslashes, hx] at h

end QueryDoc.Quoted

namespace QueryDoc.Lexer
open Quoted

/-- A line end in what is scanned of a string that is no block is taken along by a backslash.
So there is none where no backslash stands right before a line end. -/
theorem scan_string_lines {cs rest : List Char} {content : String}
    (h : scan cs = some (.string content false, rest)) :
    ∃ word, cs = word ++ rest ∧
      (∀ before c after, word = before ++ c :: after → endsLine c = true → TakesAlong before) ∧
      (¬ ['\\', '\n'] <:+: word → ¬ ['\\', '\r'] <:+: word → '\n' ∉ word ∧ '\r' ∉ word) := by
  obtain ⟨word, hword, hspells⟩ := scan_spelled h
  have hlines : ∀ before c after, word = before ++ c :: after → endsLine c = true →
      TakesAlong before := fun _ _ _ => takesAlong_of_spells hspells
  have hnone : ∀ c, endsLine c = true → ¬ ['\\', c] <:+: word → c ∉ word := by
    intro c hc hinfix hmem
    obtain ⟨before, after, heq⟩ := List.append_of_mem hmem
    obtain ⟨more, rfl⟩ := (hlines before c after heq hc).exists_backslash
    exact hinfix ⟨more, after, by simp [heq]⟩
  exact ⟨word, hword, hlines, fun hn hr => ⟨hnone '\n' rfl hn, hnone '\r' rfl hr⟩⟩

/-- A string with the escape of a line feed and, before its closing quote, of a backslash. -/
theorem scan_string_lines_escapes :
    scan ['"', 'a', '\\', 'n', '\\', '\\', '"', ' '] = some (.string "a\n\\" false, [' ']) ∧
      ∃ word, ['"', 'a', '\\', 'n', '\\', '\\', '"', ' '] = word ++ [' '] ∧
        '\n' ∉ word ∧ '\r' ∉ word := by
  have h : scan ['"', 'a', '\\', 'n', '\\', '\\', '"', ' '] =
      some (.string "a\n\\" false, [' ']) := by
    decide +kernel
  obtain ⟨word, heq, -, hnone⟩ := scan_string_lines h
  have hword : word = ['"', 'a', '\\', 'n', '\\', '\\', '"'] :=
    List.append_cancel_right (heq.symm.trans rfl)
  subst hword
  exact ⟨h, _, heq, hnone (by decide) (by decide)⟩

/-- A backslash takes a line end along, so a string need not stay on one line. -/
theorem scan_string_across_lines :
    scan ['"', 'a', '\\', '\n', 'b', '"'] = some (.string "a\\\nb" false, []) ∧
      '\n' ∈ ['"', 'a', '\\', '\n', 'b', '"'] := by
  decide +kernel

end QueryDoc.Lexer
