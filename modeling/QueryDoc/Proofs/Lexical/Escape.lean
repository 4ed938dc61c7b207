import Mathlib.Data.List.Forall2
import QueryDoc.Proofs.Lexical.Spelling

/-! Writing strings and reading them back. Each character of a string on one line may be
spelled in several ways, which are all read as the character; `encode` writes one of them.
What `encodeBlock` writes of a text whose end does not run into the closing quotes is read
back as it was. -/
namespace QueryDoc.Quoted

variable {c : Char} {n : Nat} {cs ds rest word : List Char} {words : List (List Char)}

/-! ## Reading by one step -/

theorem decode_escape (h : escape? cs = some (c, rest)) : decode cs = c :: decode rest := by
  rw [decode]
  split
  · rename_i h'
    rw [h] at h'
    cases h'
    rfl
  · rename_i h'
    rw [h] at h'
    cases h'

theorem decode_plain (h : escape? (c :: rest) = none) : decode (c :: rest) = c :: decode rest := by
  rw [decode]
  split
  · rename_i h'
    rw [h] at h'
    cases h'
  · rfl

theorem decode_nil : decode [] = [] := by
  rw [decode]
  rfl

theorem escape?_plain (h : c ≠ '\\') : escape? (c :: rest) = none := by
  unfold escape?
  split
  · rename_i heq
    cases heq
    exact absurd rfl h
  · rename_i heq
    cases heq
    exact absurd rfl h
  · rfl

/-! ## Spellings of a character -/

theorem hexValue?_of_spells {d : Char} (h : SpellsDigit d n) : hexValue? d = some n := by
  have hboth : ∀ n < 16, hexValue? n.digitChar = some n ∧
      hexValue? n.digitChar.toUpper = some n := by
    decide
  obtain ⟨hn, rfl | rfl⟩ := h
  · exact (hboth n hn).1
  · exact (hboth n hn).2

theorem codeUnit?_of_spells (h : SpellsUnit ds n) (rest : List Char) :
    codeUnit? (ds ++ rest) = some (n, rest) := by
  obtain ⟨ha, hb, hc, hd⟩ := h
  simp only [List.cons_append, List.nil_append, codeUnit?, hexValue?_of_spells ha,
    hexValue?_of_spells hb, hexValue?_of_spells hc, hexValue?_of_spells hd, Option.bind_eq_bind,
    Option.bind_some, Option.pure_def, Option.some.injEq, Prod.mk.injEq, and_true]
  omega

theorem scalar?_toNat (c : Char) : scalar? c.toNat = some c := by
  rw [scalar?, dif_pos (show c.toNat.isValidChar from c.valid)]
  rfl

theorem isHighSurrogate_toNat (c : Char) : isHighSurrogate c.toNat = false := by
  have hvalid : c.toNat < 0xD800 ∨ 0xDFFF < c.toNat ∧ c.toNat < 0x110000 := c.valid
  simp only [isHighSurrogate, Bool.and_eq_false_iff, decide_eq_false_iff_not]
  omega

theorem unicodeEscape?_unit (h : SpellsUnit ds c.toNat) (rest : List Char) :
    unicodeEscape? (ds ++ rest) = some (c, rest) := by
  rw [unicodeEscape?, codeUnit?_of_spells h]
  simp [isHighSurrogate_toNat, scalar?_toNat]

/-- The surrogates of a code point outside of the basic plane are joined to it again. -/
theorem surrogates_spec (hn : 0x10000 ≤ n) (hbound : n < 0x110000) :
    isHighSurrogate (0xD800 + (n - 0x10000) / 0x400) = true ∧
      isLowSurrogate (0xDC00 + (n - 0x10000) % 0x400) = true ∧
      joinSurrogates (0xD800 + (n - 0x10000) / 0x400) (0xDC00 + (n - 0x10000) % 0x400) = n := by
  refine ⟨?_, ?_, ?_⟩
  · simp only [isHighSurrogate, Bool.and_eq_true, decide_eq_true_eq]
    omega
  · simp only [isLowSurrogate, Bool.and_eq_true, decide_eq_true_eq]
    omega
  · unfold joinSurrogates
    omega

theorem unicodeEscape?_pair {hs ls : List Char} {high low : Nat} (hh : SpellsUnit hs high)
    (hl : SpellsUnit ls low) (hhigh : isHighSurrogate high = true)
    (hlow : isLowSurrogate low = true) (hjoin : joinSurrogates high low = c.toNat)
    (rest : List Char) :
    unicodeEscape? (hs ++ '\\' :: 'u' :: (ls ++ rest)) = some (c, rest) := by
  rw [unicodeEscape?, codeUnit?_of_spells hh]
  simp [hhigh, codeUnit?_of_spells hl, hlow, hjoin, scalar?_toNat]

/-- A character is read however it is spelled, and whatever follows. -/
theorem decode_of_spells (h : SpellsChar word c) (rest : List Char) :
    decode (word ++ rest) = c :: decode rest := by
  cases h with
  | itself _ hs => exact decode_plain (escape?_plain hs)
  | short hmem =>
    refine decode_escape ?_
    simp only [shortEscapes, List.mem_cons, Prod.mk.injEq, List.not_mem_nil, or_false] at hmem
    rcases hmem with ⟨rfl, rfl⟩ | ⟨rfl, rfl⟩ | ⟨rfl, rfl⟩ | ⟨rfl, rfl⟩ | ⟨rfl, rfl⟩ | ⟨rfl, rfl⟩ |
      ⟨rfl, rfl⟩ | ⟨rfl, rfl⟩
    all_goals rfl
  | unit hu => exact decode_escape (unicodeEscape?_unit hu rest)
  | @pair hs ls _ hc hh hl =>
    have hbound : c.toNat < 0x110000 := by
      have hvalid : c.toNat < 0xD800 ∨ 0xDFFF < c.toNat ∧ c.toNat < 0x110000 := c.valid
      omega
    obtain ⟨hhigh, hlow, hjoin⟩ := surrogates_spec hc hbound
    have hescape : escape? ('\\' :: 'u' :: (hs ++ '\\' :: 'u' :: (ls ++ rest))) =
        some (c, rest) :=
      unicodeEscape?_pair hh hl hhigh hlow hjoin rest
    simpa using decode_escape hescape

theorem isInside_digit {d : Char} (h : SpellsDigit d n) (hr : IsInside rest) :
    IsInside (d :: rest) := by
  have hvalue := hexValue?_of_spells h
  have hplain {c : Char} (hnone : hexValue? c = none) : d ≠ c := by
    rintro rfl
    rw [hnone] at hvalue
    cases hvalue
  exact .plain (hplain rfl) (hplain rfl) (hplain rfl) (hplain rfl) hr

theorem isInside_unit (h : SpellsUnit ds n) (hr : IsInside rest) : IsInside (ds ++ rest) := by
  obtain ⟨ha, hb, hc, hd⟩ := h
  exact isInside_digit ha (isInside_digit hb (isInside_digit hc (isInside_digit hd hr)))

/-- No spelling of a character closes the string or ends the line. -/
theorem isInside_of_spells (h : SpellsChar word c) (hr : IsInside rest) :
    IsInside (word ++ rest) := by
  cases h with
  | itself hq hs hn hline => exact .plain hq hs hn hline hr
  | short _ => exact .escape _ hr
  | unit hu => exact .escape 'u' (isInside_unit hu hr)
  | pair _ hh hl =>
    have hlow := IsInside.escape 'u' (isInside_unit hl hr)
    simpa using IsInside.escape 'u' (isInside_unit hh hlow)

/-! ## Strings on one line -/

/-- A string is read as what its characters are spelled for. -/
theorem decode_flatten (h : List.Forall₂ SpellsChar words cs) : decode words.flatten = cs := by
  induction h with
  | nil => exact decode_nil
  | cons hword _ ih => rw [List.flatten_cons, decode_of_spells hword, ih]

theorem isInside_flatten (h : List.Forall₂ SpellsChar words cs) : IsInside words.flatten := by
  induction h with
  | nil => exact .nil
  | cons hword _ ih => exact isInside_of_spells hword ih

theorem spellsDigit_hexDigit (hn : n < 16) : SpellsDigit (hexDigit n) n := by
  have hdigit : ∀ n < 16, hexDigit n = n.digitChar ∨ hexDigit n = n.digitChar.toUpper := by
    decide
  exact ⟨hn, hdigit n hn⟩

/-- What is written for a character is one of its spellings. -/
theorem spells_encodeChar (c : Char) : SpellsChar (encodeChar c) c := by
  by_cases hshort : c ∈ ['\r', '\n', '\t', '\x08', '\x0c', '"', '\\']
  · simp only [List.mem_cons, List.not_mem_nil, or_false] at hshort
    rcases hshort with rfl | rfl | rfl | rfl | rfl | rfl | rfl
    all_goals exact .short (by decide)
  · simp only [List.mem_cons, List.not_mem_nil, or_false, not_or] at hshort
    obtain ⟨hr, hn, ht, hb, hf, hq, hs⟩ := hshort
    rw [encodeChar, if_neg hr, if_neg hn, if_neg ht, if_neg hb, if_neg hf, if_neg hq, if_neg hs]
    split
    · rename_i hc
      simp only [isControl, Bool.or_eq_true, Bool.and_eq_true, decide_eq_true_eq] at hc
      have hzero : SpellsDigit '0' 0 := ⟨by decide, .inl rfl⟩
      have hunit := SpellsUnit.digits hzero hzero
        (spellsDigit_hexDigit (show c.toNat / 16 < 16 by omega))
        (spellsDigit_hexDigit (show c.toNat % 16 < 16 by omega))
      have hvalue : ((0 * 16 + 0) * 16 + c.toNat / 16) * 16 + c.toNat % 16 = c.toNat := by omega
      rw [hvalue] at hunit
      exact .unit hunit
    · exact .itself hq hs hn hr

theorem spells_encode (cs : List Char) : List.Forall₂ SpellsChar (cs.map encodeChar) cs := by
  rw [List.forall₂_map_left_iff, List.forall₂_same]
  exact fun c _ => spells_encodeChar c

/-- A string on one line is read back as it was written. -/
theorem decode_encode (cs : List Char) : decode (encode cs) = cs :=
  decode_flatten (spells_encode cs)

/-- What is written of a string may stand between quotes. -/
theorem isInside_encode (cs : List Char) : IsInside (encode cs) :=
  isInside_flatten (spells_encode cs)

/-! ## Blocks -/

theorem encodeBlock_plain (h : ∀ more, c :: cs ≠ quotes more) :
    encodeBlock (c :: cs) = c :: encodeBlock cs := by
  rw [encodeBlock]
  rintro more rfl rfl
  exact h more rfl

theorem decodeBlock_plain (h : ∀ more, c :: cs ≠ '\\' :: quotes more) :
    decodeBlock (c :: cs) = c :: decodeBlock cs := by
  rw [decodeBlock]
  rintro more rfl rfl
  exact h more rfl

/-- What the written form starts with is a quote only where the text does, not three. -/
theorem encodeBlock_quote {more : List Char} (h : encodeBlock cs = '"' :: more) :
    ∃ ds, cs = '"' :: ds ∧ more = encodeBlock ds ∧ ∀ q, cs ≠ quotes q := by
  by_cases hq : ∃ q, cs = quotes q
  · obtain ⟨q, rfl⟩ := hq
    cases h
  · cases cs with
    | nil => cases h
    | cons c cs =>
      have hq' : ∀ q, c :: cs ≠ quotes q := fun q heq => hq ⟨q, heq⟩
      rw [encodeBlock_plain hq'] at h
      injection h with hc hmore
      exact ⟨cs, by rw [hc], hmore.symm, hq'⟩

theorem encodeBlock_not_quotes (cs : List Char) : ∀ more, encodeBlock cs ≠ quotes more := by
  intro more h
  obtain ⟨ds, rfl, hds, hq⟩ := encodeBlock_quote h
  obtain ⟨es, rfl, hes, -⟩ := encodeBlock_quote hds.symm
  obtain ⟨fs, rfl, -, -⟩ := encodeBlock_quote hes.symm
  exact hq fs rfl

theorem length_le_encodeBlock (cs : List Char) : cs.length ≤ (encodeBlock cs).length := by
  fun_induction encodeBlock cs with
  | case1 rest ih =>
    simp only [List.length_cons]
    omega
  | case2 c rest _ ih =>
    simp only [List.length_cons]
    omega
  | case3 => exact Nat.le_refl _

/-- A block is read back as it was written. -/
theorem decodeBlock_encodeBlock (cs : List Char) : decodeBlock (encodeBlock cs) = cs := by
  fun_induction encodeBlock cs with
  | case1 rest ih => rw [decodeBlock, ih]
  | case2 c rest _ ih =>
    rw [decodeBlock_plain, ih]
    intro more heq
    injection heq with _ heq
    exact encodeBlock_not_quotes rest more heq
  | case3 => rfl

/-- No three quotes start before the closing ones. -/
theorem encodeBlock_closed (hne : cs ≠ []) (hf : fitsBlock cs = true) :
    ∀ more, encodeBlock cs ++ quotes [] ≠ quotes more := by
  intro more h
  match cs with
  -- One or two characters would need a quote at their end to go with the closing ones.
  | [a] =>
    rw [encodeBlock_plain (by simp)] at h
    injection h with ha _
    rw [ha] at hf
    cases hf
  | [a, b] =>
    rw [encodeBlock_plain (by simp), encodeBlock_plain (by simp)] at h
    injection h with _ h
    injection h with hb _
    rw [hb] at hf
    cases hf
  -- With three, the three quotes would all be in what is encoded.
  | a :: b :: c :: rest =>
    have hle := length_le_encodeBlock (a :: b :: c :: rest)
    match he : encodeBlock (a :: b :: c :: rest) with
    | x :: y :: z :: t =>
      rw [he] at h
      injection h with hx h
      injection h with hy h
      injection h with hz _
      exact encodeBlock_not_quotes _ t (by rw [he, hx, hy, hz])
    | [] | [_] | [_, _] =>
      rw [he] at hle
      simp at hle

theorem fitsBlock_iff :
    fitsBlock cs = true ↔ cs.getLast? ≠ some '"' ∧ cs.getLast? ≠ some '\\' := by
  rw [fitsBlock]
  cases cs.getLast? with
  | none => simp
  | some c => simp

theorem fitsBlock_cons (h : fitsBlock (c :: cs) = true) : fitsBlock cs = true := by
  cases cs with
  | nil => rfl
  | cons d ds => simpa [fitsBlock] using h

/-- What is written of a text that can stand in a block may stand in one. -/
theorem isBlockInside_encodeBlock (hf : fitsBlock cs = true) :
    IsBlockInside (encodeBlock cs) := by
  fun_induction encodeBlock cs with
  | case1 rest ih =>
    exact .quotes (ih (fitsBlock_cons (fitsBlock_cons (fitsBlock_cons hf))))
  | case2 c rest hq ih =>
    have hq' : ∀ more, c :: rest ≠ quotes more := by
      intro more heq
      injection heq with hc heq
      exact hq more hc heq
    refine .plain ?_ ?_ (ih (fitsBlock_cons hf))
    · have := encodeBlock_closed (List.cons_ne_nil c rest) hf
      rwa [encodeBlock_plain hq'] at this
    · intro more heq
      injection heq with hc heq
      cases rest with
      | nil =>
        rw [hc] at hf
        cases hf
      | cons d ds => exact encodeBlock_closed (List.cons_ne_nil d ds) (fitsBlock_cons hf) more heq
  | case3 => exact .nil

end QueryDoc.Quoted
