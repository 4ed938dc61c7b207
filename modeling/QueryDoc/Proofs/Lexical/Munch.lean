import QueryDoc.Proofs.Lexical.Numeral
import QueryDoc.Proofs.Lexical.Quoted

/-! Scanning terminals. What is scanned at the start of a text is the terminal that
stands there: it is spelled by what was scanned, and nothing that spells a terminal is
longer. A spelling that is followed by nothing it could go on with is scanned as it is. -/
namespace QueryDoc.Lexer
open Numeral Quoted

variable {cs rest word : List Char} {t : Token}

/-! ## What is scanned is spelled -/

theorem scanWord_sound (h : scanWord cs = some (t, rest)) :
    ∃ word, cs = word ++ rest ∧ Spells word t := by
  simp only [scanWord] at h
  split at h
  · rename_i hstart
    simp only [Option.some.injEq, Prod.mk.injEq] at h
    obtain ⟨rfl, rfl⟩ := h
    refine ⟨cs.takeWhile isNameChar, List.takeWhile_append_dropWhile.symm, .name ?_⟩
    cases cs with
    | nil => simp at hstart
    | cons c cs =>
      have hc : isNameStart c = true := by simpa using hstart
      have hc' : isNameChar c = true := by simp [isNameChar, hc]
      simp only [List.takeWhile_cons, hc', if_true, Name.isSpelling, hc, Bool.true_and]
      exact List.all_takeWhile
  · simp only [Option.map_eq_some_iff, Prod.mk.injEq, Prod.exists] at h
    obtain ⟨text, more, hscan, rfl, rfl⟩ := h
    obtain ⟨heq, hn⟩ := scan_spec hscan
    exact ⟨text, heq, .number hn⟩

theorem scanString_sound (h : scanString cs = some (t, rest)) :
    ∃ word, '"' :: cs = word ++ rest ∧ Spells word t := by
  simp only [scanString, Option.map_eq_some_iff, Prod.mk.injEq, Prod.exists] at h
  obtain ⟨inside, more, hclose, rfl, rfl⟩ := h
  obtain ⟨rfl, hi⟩ := close_sound hclose
  exact ⟨_, by simp, .string hi⟩

theorem scanBlock_sound (h : scanBlock cs = some (t, rest)) :
    ∃ word, quotes cs = word ++ rest ∧ Spells word t ∧ ∃ content, t = .string content true := by
  simp only [scanBlock, Option.map_eq_some_iff, Prod.mk.injEq, Prod.exists] at h
  obtain ⟨inside, more, hclose, rfl, rfl⟩ := h
  obtain ⟨rfl, hi⟩ := closeBlock_sound hclose
  exact ⟨_, by simp, .block hi, _, rfl⟩

theorem scan_quotes (cs : List Char) : scan (quotes cs) = scanBlock cs := rfl

theorem scan_quote (h : ∀ more, '"' :: cs ≠ quotes more) : scan ('"' :: cs) = scanString cs := by
  rw [scan]
  intro more hx
  subst hx
  exact h more rfl

theorem scan_spelled (h : scan cs = some (t, rest)) :
    ∃ word, cs = word ++ rest ∧ Spells word t := by
  unfold scan at h
  split at h
  case h_13 =>
    obtain ⟨word, heq, hw, -⟩ := scanBlock_sound h
    exact ⟨word, heq, hw⟩
  case h_14 => exact scanString_sound h
  case h_15 => exact scanWord_sound h
  all_goals
    simp only [Option.some.injEq, Prod.mk.injEq] at h
    obtain ⟨rfl, rfl⟩ := h
    exact ⟨_, List.singleton_append.symm, by constructor⟩

/-! ## What is spelled is scanned -/

/-- What could continue a terminal. -/
def continues : Token → Char → Bool
  | .name _ => isNameChar
  | .number _ => goesOn
  | .string _ false => (· == '"')
  | _ => fun _ => false

theorem scan_scanWord {c : Char} (h : isNameStart c = true ∨ isDigit c = true ∨ c = '-')
    (cs : List Char) : scan (c :: cs) = scanWord (c :: cs) := by
  unfold scan
  split
  case h_15 => rfl
  all_goals
    rename_i heq
    cases heq
    exact absurd h (by decide)

theorem scan_name_append (h : Name.isSpelling word = true) (rest : List Char) :
    scan (word ++ rest) =
      some (.name (String.ofList ((word ++ rest).takeWhile isNameChar)),
        (word ++ rest).dropWhile isNameChar) := by
  cases word with
  | nil => cases h
  | cons c cs =>
    have hc : isNameStart c = true := by
      simp only [Name.isSpelling, Bool.and_eq_true] at h
      exact h.1
    rw [List.cons_append, scan_scanWord (.inl hc)]
    simp [scanWord, hc]

theorem all_isNameChar (h : Name.isSpelling word = true) : ∀ c ∈ word, isNameChar c = true := by
  cases word with
  | nil => cases h
  | cons c cs =>
    simp only [Name.isSpelling, Bool.and_eq_true, List.all_eq_true] at h
    simpa [isNameChar, h.1] using h.2

theorem isNameStart_digit {c : Char} (h : isDigit c = true) : isNameStart c = false := by
  have hd : 48 ≤ c.toNat ∧ c.toNat ≤ 57 := by
    simpa [isDigit, Char.le_def, UInt32.le_iff_toNat_le] using h
  have hu : c ≠ '_' := by
    intro hx
    subst hx
    exact absurd h (by decide)
  simp only [isNameStart, isLetter, Char.le_def, UInt32.le_iff_toNat_le, hu, decide_false,
    Bool.or_false, Bool.or_eq_false_iff, Bool.and_eq_false_iff, decide_eq_false_iff_not]
  show (¬ 97 ≤ c.toNat ∨ ¬ c.toNat ≤ 122) ∧ (¬ 65 ≤ c.toNat ∨ ¬ c.toNat ≤ 90)
  omega

theorem scan_number_append (h : IsNumber word) (rest : List Char) :
    scan (word ++ rest) =
      (Numeral.scan (word ++ rest)).map
        fun (text, rest) => (.number (String.ofList text), rest) := by
  obtain ⟨c, more, rfl, hc⟩ := h.head
  have hname : isNameStart c = false := by
    rcases hc with hc | rfl
    · exact isNameStart_digit hc
    · decide
  rw [List.cons_append, scan_scanWord (.inr hc), scanWord]
  simp [hname]

/-- Three quotes start a string only if they are its own two and one that follows it. -/
theorem inside_of_quotes {inside more : List Char} (h : IsInside inside)
    (heq : '"' :: (inside ++ '"' :: rest) = quotes more) : inside = [] ∧ rest = '"' :: more := by
  cases h with
  | nil =>
    injection heq with _ heq
    injection heq with _ heq
    exact ⟨rfl, heq⟩
  | escape => cases heq
  | plain hq =>
    injection heq with _ heq
    injection heq with hc _
    exact absurd hc hq

theorem IsInside.not_quotes {inside : List Char} (h : IsInside inside)
    (hr : Apart (· == '"') rest) :
    ∀ more, '"' :: (inside ++ '"' :: rest) ≠ quotes more := by
  intro more heq
  obtain ⟨-, rfl⟩ := inside_of_quotes h heq
  exact absurd (hr _ rfl) (by decide)

/-- A spelling that is followed by nothing that could continue it is scanned. -/
theorem scan_exact (h : Spells word t) (hr : Apart (continues t) rest) :
    scan (word ++ rest) = some (t, rest) := by
  cases h with
  | name hn =>
    rw [scan_name_append hn, takeWhile_run (all_isNameChar hn) hr,
      dropWhile_run (all_isNameChar hn) hr]
  | number hn =>
    rw [scan_number_append hn, Numeral.scan_exact hn hr]
    rfl
  | string hi =>
    rw [List.cons_append, List.append_assoc, List.singleton_append,
      scan_quote (IsInside.not_quotes hi hr), scanString, close_complete hi]
    rfl
  | block hi =>
    show scan (quotes ((_ ++ quotes []) ++ rest)) = _
    rw [scan_quotes, List.append_assoc, scanBlock]
    show (closeBlock false (_ ++ quotes rest)).map _ = _
    rw [closeBlock_complete hi]
    rfl
  | _ => rfl

/-- Where a spelling stands, no shorter one is scanned. -/
theorem scan_longer (h : Spells word t) (rest : List Char)
    (hq : ∀ more, word ++ rest = quotes more → ∃ content, t = .string content true) :
    ∃ u more, scan (word ++ rest) = some (u, more) ∧ more.length ≤ rest.length := by
  cases h with
  | name hn =>
    rw [scan_name_append hn]
    exact ⟨_, _, rfl, dropWhile_length_le (all_isNameChar hn) rest⟩
  | number hn =>
    obtain ⟨text, more, hscan, hle⟩ := Numeral.scan_longer hn rest
    rw [scan_number_append hn, hscan]
    exact ⟨_, more, rfl, hle⟩
  | @string cs hi =>
    have hopen : ∀ more, '"' :: (cs ++ '"' :: rest) ≠ quotes more := by
      intro more heq
      obtain ⟨content, hcontent⟩ := hq more (by simpa using heq)
      cases hcontent
    rw [List.cons_append, List.append_assoc, List.singleton_append, scan_quote hopen, scanString,
      close_complete hi]
    exact ⟨_, rest, rfl, Nat.le_refl _⟩
  | block hi => exact ⟨_, rest, scan_exact (.block hi) (fun _ _ => rfl), Nat.le_refl _⟩
  | _ => exact ⟨_, rest, rfl, Nat.le_refl _⟩

theorem spells_unique {u : Token} (h : Spells word t) (h' : Spells word u) : t = u := by
  have ht := scan_exact h (.nil _)
  have hu := scan_exact h' (.nil _)
  rw [ht] at hu
  injection hu with hu
  injection hu

/-! ## What is scanned stands there -/

theorem scan_opens {more : List Char} (h : scan (quotes more) = some (t, rest)) :
    ∃ content, t = .string content true :=
  let ⟨_, _, _, ht⟩ := scanBlock_sound h
  ht

/-- Before three quotes, anything else than a block is the string of no characters. -/
theorem quotes_length {q more : List Char} (h : Spells word t) (heq : quotes q = word ++ more)
    (hb : ∀ content, t ≠ .string content true) : q.length ≤ more.length := by
  cases h with
  | @name cs hn =>
    cases word with
    | nil => cases hn
    | cons c cs =>
      injection heq with hc _
      rw [← hc] at hn
      exact absurd hn (by simp [Name.isSpelling, isNameStart, isLetter])
  | number hn =>
    obtain ⟨c, cs, rfl, hc⟩ := hn.head
    injection heq with hquote _
    rw [← hquote] at hc
    exact absurd hc (by decide)
  | @string cs hi =>
    -- The second quote has to close the string.
    cases hi with
    | nil =>
      cases heq
      simp
    | escape =>
      injection heq with _ heq
      injection heq with hc _
      exact absurd hc (by decide)
    | plain hq =>
      injection heq with _ heq
      injection heq with hc _
      exact absurd hc.symm hq
  | block _ => exact absurd rfl (hb _)
  | _ => cases heq

/-- What is scanned at the start of a text is the terminal that stands there. -/
theorem scan_iff : scan cs = some (t, rest) ↔ Stands cs t rest := by
  constructor
  · intro h
    refine ⟨scan_spelled h, fun word more u heq hu => ?_, ?_⟩
    · by_cases hq : ∀ q, word ++ more = quotes q → ∃ content, u = .string content true
      · obtain ⟨v, more', hscan, hle⟩ := scan_longer hu more hq
        rw [← heq, h] at hscan
        injection hscan with hscan
        injection hscan with _ hrest
        rwa [hrest]
      · -- Three quotes open a block, which is longer than the two that are a string.
        simp only [Classical.not_forall, not_exists] at hq
        obtain ⟨q, hq, hb⟩ := hq
        have hlength := quotes_length hu hq.symm hb
        rw [heq, hq, scan_quotes] at h
        have := scanBlock_length h
        omega
    · intro more hx
      subst hx
      exact scan_opens h
  · intro hx
    obtain ⟨⟨word, rfl, hw⟩, hlongest, hopens⟩ := hx
    obtain ⟨u, more, hscan, hle⟩ := scan_longer hw rest hopens
    obtain ⟨word', heq, hw'⟩ := scan_spelled hscan
    have hge := hlongest word' more u heq hw'
    -- Both are the longest ones, so they are spelled with the same characters.
    obtain ⟨rfl, rfl⟩ := List.append_inj' heq (by omega)
    rw [hscan, spells_unique hw hw']

end QueryDoc.Lexer
