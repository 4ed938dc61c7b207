import QueryDoc.Proofs.Lexical.Munch

/-! Scanning whole texts. Ignored input ends where a terminal starts, so it is skipped
in one way only, and the terminals of a text are those that are scanned one after
another. -/
namespace QueryDoc.Lexer

variable {cs rest start : List Char} {t : Token} {ts : List Token} {b : Bool}

/-! ## Ignored input -/

theorem endsLine_eq_false {c : Char} : endsLine c = false ↔ (c ≠ '\n' ∧ c ≠ '\r') := by
  simp [endsLine]

theorem isBlank_of_endsLine {c : Char} (h : endsLine c = true) : isBlank c = true := by
  simp only [endsLine, Bool.or_eq_true, decide_eq_true_eq] at h
  rcases h with rfl | rfl <;> decide

theorem skip_line {c : Char} (hc : endsLine c = true) (cs : List Char) :
    skip true (c :: cs) = skip false cs := by
  simp only [endsLine, Bool.or_eq_true, decide_eq_true_eq] at hc
  rw [skip, if_pos rfl]
  rcases hc with rfl | rfl <;> rfl

theorem skip_no_line {c : Char} (hc : endsLine c = false) (cs : List Char) :
    skip true (c :: cs) = skip true cs := by
  obtain ⟨hn, hr⟩ := endsLine_eq_false.mp hc
  rw [skip, if_pos rfl]
  simp [hn, hr]

/-- What is skipped is ignored input, and within a comment first the rest of that. -/
theorem ignored_skip (cs : List Char) :
    Ignored cs (skip false cs) ∧
      ∃ body more, cs = body ++ more ∧ (∀ c ∈ body, endsLine c = false) ∧
        (∀ c ∈ more.head?, endsLine c = true) ∧ Ignored more (skip true cs) := by
  -- Both at once, as a comment begins in the first one and ends in the second one.
  induction cs with
  | nil => exact ⟨.none [], [], [], rfl, by simp, by simp, .none []⟩
  | cons c cs ih =>
    obtain ⟨ih, body, more, heq, hbody, hmore, ih'⟩ := ih
    constructor
    · rw [skip, if_neg Bool.false_ne_true]
      by_cases hc : isBlank c = true
      · rw [if_pos hc]
        exact .blank hc ih
      · rw [if_neg hc]
        by_cases hm : c = '#'
        · rw [if_pos hm, hm]
          have := Ignored.comment hbody hmore ih'
          rwa [← heq] at this
        · rw [if_neg hm]
          exact .none _
    · by_cases hc : endsLine c = true
      · refine ⟨[], c :: cs, rfl, by simp, ?_, ?_⟩
        · intro d hd
          cases hd
          exact hc
        · rw [skip_line hc]
          exact .blank (isBlank_of_endsLine hc) ih
      · have hc := eq_false_of_ne_true hc
        refine ⟨c :: body, more, by rw [heq]; rfl, ?_, hmore, ?_⟩
        · simpa [hc] using hbody
        · rw [skip_no_line hc]
          exact ih'

/-- A comment is skipped to its end. -/
theorem skip_comment {more : List Char} (hcs : ∀ c ∈ cs, endsLine c = false)
    (hmore : ∀ c ∈ more.head?, endsLine c = true) :
    skip true (cs ++ more) = skip false more := by
  induction cs with
  | nil =>
    cases more with
    | nil => rfl
    | cons c more =>
      have hc := hmore c rfl
      rw [List.nil_append, skip_line hc, skip, if_neg Bool.false_ne_true,
        if_pos (isBlank_of_endsLine hc)]
  | cons c cs ih =>
    rw [List.cons_append, skip_no_line (hcs c (by simp))]
    exact ih fun d hd => hcs d (by simp [hd])

theorem skip_ignored (h : Ignored cs rest) : skipIgnored cs = skipIgnored rest := by
  induction h with
  | none => rfl
  | @blank c cs rest hc _ ih =>
    rw [← ih, skipIgnored, skipIgnored, skip, if_neg Bool.false_ne_true, if_pos hc]
  | @comment cs more rest hcs hmore _ ih =>
    rw [← ih, skipIgnored, skip, if_neg Bool.false_ne_true, if_neg (by decide), if_pos rfl]
    exact skip_comment hcs hmore

/-! ## Terminals one after another -/

/-- A character that passes a test which ignored input does not pass. -/
theorem solid_of_test {p : Char → Bool} {c : Char} (hc : p c = true)
    (hp : [' ', '\t', '\n', '\r', ',', '\ufeff', '#'].any p = false) :
    isBlank c = false ∧ c ≠ '#' := by
  have hne : ∀ d ∈ [' ', '\t', '\n', '\r', ',', '\ufeff', '#'], c ≠ d := by
    intro d hd heq
    subst heq
    exact List.any_eq_false.mp hp c hd hc
  constructor
  · simp [isBlank, hne ' ' (by simp), hne '\t' (by simp), hne '\n' (by simp), hne '\r' (by simp),
      hne ',' (by simp), hne '\ufeff' (by simp)]
  · exact hne '#' (by simp)

/-- What a terminal is spelled with does not start like ignored input. -/
theorem spells_head {word : List Char} (h : Spells word t) :
    ∃ c more, word = c :: more ∧ isBlank c = false ∧ c ≠ '#' := by
  cases h with
  | name hn =>
    cases word with
    | nil => cases hn
    | cons c cs =>
      simp only [Name.isSpelling, Bool.and_eq_true] at hn
      exact ⟨c, cs, rfl, solid_of_test hn.1 (by decide)⟩
  | number hn =>
    obtain ⟨c, cs, rfl, hc⟩ := hn.head
    exact ⟨c, cs, rfl, solid_of_test (p := fun c => isDigit c || c == '-') (by simpa using hc)
      (by decide)⟩
  | _ => exact ⟨_, _, rfl, by decide, by decide⟩

theorem scan_solid (h : scan cs = some (t, rest)) : cs.isEmpty = false ∧ skipIgnored cs = cs := by
  obtain ⟨word, rfl, hw⟩ := scan_spelled h
  obtain ⟨c, more, rfl, hb, hm⟩ := spells_head hw
  refine ⟨rfl, ?_⟩
  rw [List.cons_append, skipIgnored, skip, if_neg Bool.false_ne_true, if_neg (by simp [hb]),
    if_neg hm]

theorem lexFrom_nil (h : begin b cs = []) : lexFrom b cs = [] := by
  rw [begin] at h
  rw [lexFrom]
  simp [h]

theorem lexFrom_some (h : scan (begin b cs) = some (t, rest)) :
    lexFrom b cs = ⟨t, begin b cs⟩ :: lexFrom t.isSigil rest := by
  have hs := (scan_solid h).1
  rw [begin] at h hs ⊢
  rw [lexFrom]
  simp only [hs, Bool.false_eq_true, if_false]
  split <;> simp_all

theorem lexFrom_none (hs : (begin b cs).isEmpty = false) (h : scan (begin b cs) = none) :
    lexFrom b cs = [⟨.invalid, begin b cs⟩] := by
  rw [begin] at h hs ⊢
  rw [lexFrom]
  simp only [hs, Bool.false_eq_true, if_false]
  split <;> simp_all

/-- How the terminals begin: there is no input, no terminal starts, or the first one is scanned
and the others after it. -/
theorem lexFrom_cases (b : Bool) (cs : List Char) :
    (begin b cs = [] ∧ lexFrom b cs = []) ∨ lexFrom b cs = [⟨.invalid, begin b cs⟩] ∨
      ∃ t rest, scan (begin b cs) = some (t, rest) ∧
        lexFrom b cs = ⟨t, begin b cs⟩ :: lexFrom t.isSigil rest := by
  by_cases hstart : begin b cs = []
  · exact .inl ⟨hstart, lexFrom_nil hstart⟩
  · cases hscan : scan (begin b cs) with
    | none => exact .inr (.inl (lexFrom_none (List.isEmpty_eq_false_iff.mpr hstart) hscan))
    | some o => exact .inr (.inr ⟨o.1, o.2, rfl, lexFrom_some hscan⟩)

/-- Terminals are told by where the first one starts. -/
theorem lexFrom_congr {b b' : Bool} {cs cs' : List Char} (h : begin b cs = begin b' cs') :
    lexFrom b cs = lexFrom b' cs' := by
  cases hb : begin b cs with
  | nil => rw [lexFrom_nil hb, lexFrom_nil (h.symm.trans hb)]
  | cons c more =>
    cases hscan : scan (begin b cs) with
    | none =>
      rw [lexFrom_none (by rw [hb]; rfl) hscan, lexFrom_none (by rw [← h, hb]; rfl) (h ▸ hscan), h]
    | some p =>
      obtain ⟨t, rest⟩ := p
      have hscan' : scan (begin b' cs') = some (t, rest) := h ▸ hscan
      rw [lexFrom_some hscan, lexFrom_some hscan', h]

theorem begin_solid (h : scan cs = some (t, rest)) (b : Bool) : begin b cs = cs := by
  cases b with
  | true => rfl
  | false => exact (scan_solid h).2

theorem begin_length_le (b : Bool) (cs : List Char) : (begin b cs).length ≤ cs.length := by
  cases b with
  | true => exact Nat.le_refl _
  | false => exact skip_length false cs

/-- The terminals that are scanned are written, if each of them is one. -/
theorem lexFrom_written (b : Bool) (cs : List Char)
    (h : Token.invalid ∉ (lexFrom b cs).map (·.token)) :
    Written (begin b cs) ((lexFrom b cs).map (·.token)) := by
  induction hn : cs.length using Nat.strongRecOn generalizing b cs with
  | _ n ih =>
    rcases lexFrom_cases b cs with ⟨hstart, hlex⟩ | hlex | ⟨t, rest, hscan, hlex⟩
    · rw [hlex, hstart]
      exact .nil
    · rw [hlex] at h
      simp at h
    · have hlt := scan_length hscan
      have hle := begin_length_le b cs
      rw [hlex, List.map_cons, List.mem_cons, not_or] at h
      have hrest := ih rest.length (by omega) t.isSigil rest h.2 rfl
      rw [hlex]
      -- After a sigil nothing is skipped, so the next terminal touches it.
      cases hsigil : t.isSigil with
      | true =>
        rw [hsigil] at hrest
        exact .sigil (scan_iff.mp hscan) (Token.isSigil_iff.mp hsigil) hrest
      | false =>
        rw [hsigil] at hrest
        exact .spaced (scan_iff.mp hscan) (Token.isSigil_eq_false_iff.mp hsigil)
          (ignored_skip rest).1 hrest

theorem written_solid (h : Written start ts) : skipIgnored start = start := by
  cases h with
  | nil => rfl
  | sigil ht _ _ => exact (scan_solid (scan_iff.mpr ht)).2
  | spaced ht _ _ _ => exact (scan_solid (scan_iff.mpr ht)).2

theorem written_lexFrom (h : Written start ts) (hb : begin b cs = start) :
    (lexFrom b cs).map (·.token) = ts := by
  induction h generalizing b cs with
  | nil =>
    rw [lexFrom_nil hb]
    rfl
  | @sigil start rest t ts ht hsigil _ ih =>
    rw [lexFrom_some (by rw [hb]; exact scan_iff.mpr ht), List.map_cons, ih]
    rw [Token.isSigil_iff.mpr hsigil]
    rfl
  | @spaced start more rest t ts ht hsigil hi hw ih =>
    rw [lexFrom_some (by rw [hb]; exact scan_iff.mpr ht), List.map_cons, ih]
    rw [Token.isSigil_eq_false_iff.mpr hsigil]
    exact (skip_ignored hi).trans (written_solid hw)

/-- Each terminal that is written has a spelling. -/
theorem spelled_of_written (h : Written start ts) : ∀ t ∈ ts, ∃ word, Spells word t := by
  have hspelled {cs rest : List Char} {t : Token} (ht : Stands cs t rest) :
      ∃ word, Spells word t := by
    obtain ⟨word, -, hw⟩ := ht.spelled
    exact ⟨word, hw⟩
  induction h with
  | nil => exact List.forall_mem_nil _
  | sigil ht _ _ ih => exact List.forall_mem_cons.mpr ⟨hspelled ht, ih⟩
  | spaced ht _ _ _ ih => exact List.forall_mem_cons.mpr ⟨hspelled ht, ih⟩

theorem written_valid (h : Written start ts) : Token.invalid ∉ ts := by
  intro hmem
  obtain ⟨word, hw⟩ := spelled_of_written h _ hmem
  cases hw

/-- The terminals of a source text are those that are written there, after ignored
input. -/
theorem lex_iff {source : String} :
    ((lex source).map (·.token) = ts ∧ Token.invalid ∉ ts) ↔
      ∃ start, Ignored source.toList start ∧ Written start ts := by
  constructor
  · intro hx
    obtain ⟨rfl, h⟩ := hx
    exact ⟨_, (ignored_skip source.toList).1, lexFrom_written false _ h⟩
  · intro hx
    obtain ⟨start, hi, hw⟩ := hx
    refine ⟨written_lexFrom hw ?_, written_valid hw⟩
    exact (skip_ignored hi).trans (written_solid hw)

end QueryDoc.Lexer
