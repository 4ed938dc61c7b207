import QueryDoc.Proofs.Lexical.Texts

/-! Cutting a text before one of its terminals. What stands before the cut is scanned as it
was, whatever comes after it instead, if only that cannot go on with the last terminal: a
line feed goes on with none, and it ends a comment. After a sigil anything may come. -/
namespace QueryDoc.Lexer
open Numeral Quoted

variable {cs rest word u v y : List Char} {t : Token} {b : Bool}

/-! ## One terminal -/

/-- A character that no name and no number contains. -/
def isFence (c : Char) : Bool := c = '\n' || c = '$' || c = '@'

/-- The second of two texts starts with a line feed, or there is a fence in the first one. -/
def Fenced (u y : List Char) : Prop := (∃ c ∈ u, isFence c = true) ∨ ∃ z, y = '\n' :: z

theorem isFence_digit {c : Char} (h : isDigit c = true) : isFence c = false := by
  have hne : ∀ d, isDigit d = false → c ≠ d := by
    intro d hd heq
    rw [heq, hd] at h
    cases h
  simp [isFence, hne '\n' (by decide), hne '$' (by decide), hne '@' (by decide)]

theorem isFence_number (h : IsNumber cs) : ∀ c ∈ cs, isFence c = false := by
  have hdigits : ∀ {ds : List Char}, Digits ds → ∀ c ∈ ds, isFence c = false :=
    fun hds c hc => isFence_digit (hds.2 c hc)
  obtain ⟨hs, hw, hf, hx⟩ := h
  simp only [List.forall_mem_append]
  refine ⟨?_, hdigits hw, ?_, ?_⟩
  · cases hs with
    | none => nofun
    | minus => exact List.forall_mem_singleton.mpr rfl
  · cases hf with
    | none => nofun
    | point hds => exact List.forall_mem_cons.mpr ⟨rfl, hdigits hds⟩
  · cases hx with
    | none => nofun
    | mark hmark hsign hds =>
      refine List.forall_mem_cons.mpr ⟨?_, List.forall_mem_append.mpr ⟨?_, hdigits hds⟩⟩
      · rcases hmark with rfl | rfl <;> rfl
      · cases hsign with
        | none => nofun
        | plus | minus => exact List.forall_mem_singleton.mpr rfl

/-- What stands at the start of fenced texts and has no fence stands in the first one. -/
theorem Fenced.inside {x more : List Char} (h : Fenced u y) (hx : ∀ c ∈ x, isFence c = false)
    (heq : u ++ y = x ++ more) : ∃ w, u = x ++ w := by
  rcases List.append_eq_append_iff.mp heq with ⟨w, rfl, rfl⟩ | ⟨w, rfl, -⟩
  · rw [List.forall_mem_append] at hx
    rcases h with ⟨c, hc, hf⟩ | ⟨z, hz⟩
    · rw [hx.1 c hc] at hf
      cases hf
    · cases w with
      | nil => exact ⟨[], by simp⟩
      | cons c w =>
        cases hz
        exact absurd (hx.2 '\n' List.mem_cons_self) (by decide)
  · exact ⟨w, rfl⟩

/-- The first character of fenced texts is that of the first one or a line feed. -/
theorem Fenced.apart {p : Char → Bool} (h : Fenced u y) (hu : Apart p (u ++ v))
    (hp : p '\n' = false) : Apart p (u ++ y) := by
  cases u with
  | nil =>
    rcases h with ⟨c, hc, -⟩ | ⟨z, rfl⟩
    · cases hc
    · exact .cons hp z
  | cons c u => exact .cons (hu c rfl) _

theorem apart_dropWhile (p : Char → Bool) (cs : List Char) : Apart p (cs.dropWhile p) := by
  induction cs with
  | nil => exact .nil p
  | cons c cs ih =>
    by_cases hc : p c = true
    · rwa [List.dropWhile_cons_of_pos hc]
    · rw [List.dropWhile_cons_of_neg hc]
      exact .cons (eq_false_of_ne_true hc) cs

/-- A number that ends before some text ends before other texts too. -/
theorem scan_number_cut (hn : IsNumber word)
    (hscan : scan (word ++ (u ++ v)) = some (.number (String.ofList word), u ++ v))
    (hfence : Fenced u y) : Numeral.scan (word ++ (u ++ y)) = some (word, u ++ y) := by
  obtain ⟨text, more, hlonger, hle⟩ := Numeral.scan_longer hn (u ++ y)
  obtain ⟨heq, hnumber⟩ := scan_spec hlonger
  obtain ⟨x, rfl, hx⟩ : ∃ x, text = word ++ x ∧ u ++ y = x ++ more := by
    rcases List.append_eq_append_iff.mp heq with ⟨x, rfl, hx⟩ | ⟨x, rfl, rfl⟩
    · exact ⟨x, rfl, hx⟩
    · rw [List.length_append] at hle
      obtain rfl : x = [] := List.eq_nil_of_length_eq_zero (by omega)
      exact ⟨[], by simp⟩
  have hplain := isFence_number hnumber
  rw [List.forall_mem_append] at hplain
  -- What is scanned now lies before the cut, so a longer number was there before, too.
  obtain ⟨w, rfl⟩ := hfence.inside hplain.2 hx
  have hlongest := (scan_iff.mp hscan).longest (word ++ x) (w ++ v) _ (by simp) (.number hnumber)
  simp only [List.length_append] at hlongest
  obtain rfl : x = [] := List.eq_nil_of_length_eq_zero (by omega)
  rw [hlonger, List.append_nil, hx]
  rfl

/-- No quotes come to open a block where there was a string of no characters. -/
theorem Fenced.not_quotes {inside : List Char} (h : Fenced u y) (hi : IsInside inside)
    (hscan : scan ('"' :: (inside ++ '"' :: (u ++ v))) =
      some (.string (String.ofList (decode inside)) false, u ++ v)) :
    ∀ more, '"' :: (inside ++ '"' :: (u ++ y)) ≠ quotes more := by
  intro more heq
  obtain ⟨rfl, hquote⟩ := inside_of_quotes hi heq
  cases u with
  | nil =>
    rcases h with ⟨c, hc, -⟩ | ⟨z, rfl⟩
    · cases hc
    · cases hquote
  | cons c u =>
    injection hquote with hc _
    subst hc
    obtain ⟨content, hblock⟩ := scan_opens hscan
    cases hblock

/-- A terminal that was scanned is scanned before another text too, if it is a sigil or
what follows it goes on with no terminal. -/
theorem scan_cut (h : Spells word t) (hscan : scan (word ++ (u ++ v)) = some (t, u ++ v))
    (hfence : t.isSigil = false → Fenced u y) :
    scan (word ++ (u ++ y)) = some (t, u ++ y) := by
  cases h with
  | name hn =>
    refine scan_exact (.name hn) ((hfence rfl).apart (v := v) ?_ rfl)
    rw [scan_name_append hn, Option.some.injEq, Prod.mk.injEq] at hscan
    rw [← hscan.2]
    exact apart_dropWhile isNameChar _
  | number hn =>
    rw [scan_number_append hn, scan_number_cut hn hscan (hfence rfl)]
    rfl
  | string hi =>
    rw [List.cons_append, List.append_assoc, List.singleton_append] at hscan ⊢
    rw [scan_quote ((hfence rfl).not_quotes hi hscan), scanString, close_complete hi]
    rfl
  | block hi => exact scan_exact (.block hi) fun _ _ => rfl
  | _ => rfl

/-! ## A text -/

/-- A character is skipped or not, whatever comes after it. -/
theorem skip_step (b : Bool) (c : Char) :
    (∃ b', ∀ cs, skip b (c :: cs) = skip b' cs) ∨ b = false ∧ ∀ cs, skip b (c :: cs) = c :: cs := by
  cases b with
  | true => exact .inl ⟨_, fun _ => rfl⟩
  | false =>
    by_cases hc : isBlank c = true
    · exact .inl ⟨false, fun cs => by rw [skip, if_neg Bool.false_ne_true, if_pos hc]⟩
    · by_cases hm : c = '#'
      · exact .inl ⟨true, fun cs => by rw [skip, if_neg Bool.false_ne_true, if_neg hc, if_pos hm]⟩
      · exact .inr ⟨rfl, fun cs => by rw [skip, if_neg Bool.false_ne_true, if_neg hc, if_neg hm]⟩

/-- Ignored input before the cut is skipped as it was. Where it reaches up to there it may
be a comment that has to be ended. -/
theorem skip_cut (b : Bool) (cs : List Char) :
    ∃ pre, cs = pre ++ skip b cs ∧
      ∀ y, (skip b cs = [] → ∃ z, y = '\n' :: z) → skip b (pre ++ y) = skip false y := by
  induction cs generalizing b with
  | nil =>
    refine ⟨[], rfl, fun y hy => ?_⟩
    obtain ⟨z, rfl⟩ := hy rfl
    cases b with
    | false => rfl
    | true => exact skip_line rfl z
  | cons c cs ih =>
    rcases skip_step b c with ⟨b', hstep⟩ | ⟨rfl, hstay⟩
    · obtain ⟨pre, heq, hskip⟩ := ih b'
      refine ⟨c :: pre, ?_, fun y hy => ?_⟩
      · rw [hstep, List.cons_append, ← heq]
      · rw [List.cons_append, hstep]
        exact hskip y fun hnil => hy ((hstep cs).trans hnil)
    · exact ⟨[], (hstay cs).symm, fun _ _ => rfl⟩

theorem begin_cut (b : Bool) (cs : List Char) :
    ∃ pre, cs = pre ++ begin b cs ∧
      ∀ y, (begin b cs = [] → b = false → ∃ z, y = '\n' :: z) → begin b (pre ++ y) = begin b y := by
  cases b with
  | true => exact ⟨[], rfl, fun _ _ => rfl⟩
  | false =>
    obtain ⟨pre, heq, hskip⟩ := skip_cut false cs
    exact ⟨pre, heq, fun y hy => hskip y fun hnil => hy hnil rfl⟩

theorem begin_suffix (b : Bool) (cs : List Char) : begin b cs <:+ cs := by
  obtain ⟨pre, heq, -⟩ := begin_cut b cs
  exact ⟨pre, heq.symm⟩

/-- The first terminal is scanned where it starts, if it is one. -/
theorem lexFrom_cons {l : Lexeme} {ls : List Lexeme} (h : lexFrom b cs = l :: ls)
    (hv : l.token ≠ .invalid) :
    ∃ rest, scan (begin b cs) = some (l.token, rest) ∧ lexFrom l.token.isSigil rest = ls := by
  rcases lexFrom_cases b cs with ⟨-, hlex⟩ | hlex | ⟨t, rest, hscan, hlex⟩
  · rw [hlex] at h
    cases h
  · rw [hlex] at h
    cases h
    exact absurd rfl hv
  · rw [hlex] at h
    cases h
    exact ⟨rest, hscan, rfl⟩

/-- The place where some terminals start, which is the end where there are none. -/
def placeOf : List Lexeme → List Char
  | [] => []
  | m :: _ => m.place

theorem placeOf_lexFrom (b : Bool) (cs : List Char) : placeOf (lexFrom b cs) = begin b cs := by
  rcases lexFrom_cases b cs with ⟨hstart, hlex⟩ | hlex | ⟨t, rest, -, hlex⟩
  · rw [hlex, hstart]
    rfl
  · rw [hlex]
    rfl
  · rw [hlex]
    rfl

/-- Whether a terminal that comes after some others directly follows a sigil. -/
def afterSigil (b : Bool) : List Token → Bool
  | [] => b
  | t :: ts => afterSigil t.isSigil ts

theorem fence_of_sigil (h : Spells word t) (hs : t.isSigil = true) :
    ∃ c ∈ word, isFence c = true := by
  cases h with
  | dollar => exact ⟨_, List.mem_singleton_self _, rfl⟩
  | atSign => exact ⟨_, List.mem_singleton_self _, rfl⟩
  | _ => cases hs

/-- A text in two parts, of which the first one has given terminals whatever stands in
place of the second one; but if that is not after a sigil, it has to start with a line feed. -/
structure Cut (b : Bool) (cs : List Char) (seen : List Token) (before after : List Char) :
    Prop where
  split : cs = before ++ after
  fence : b = false → afterSigil b seen = true → ∃ c ∈ before, isFence c = true
  resume : ∀ y, (afterSigil b seen = false → ∃ z, y = '\n' :: z) →
    (lexFrom b (before ++ y)).map (·.token) =
      seen ++ (lexFrom (afterSigil b seen) y).map (·.token)

theorem Cut.whole (b : Bool) (cs : List Char) : Cut b cs [] [] cs :=
  ⟨rfl, fun hb hs => absurd (hb.symm.trans hs) Bool.false_ne_true, fun _ _ => rfl⟩

/-- A text can be cut before its first terminal. -/
theorem cut_start (b : Bool) (cs : List Char) : ∃ before, Cut b cs [] before (begin b cs) := by
  obtain ⟨pre, heq, hbegin⟩ := begin_cut b cs
  refine ⟨pre, heq, fun hb hs => ?_, fun y hy => ?_⟩
  · exact absurd (hb.symm.trans hs) Bool.false_ne_true
  · exact congrArg _ (lexFrom_congr (hbegin y fun _ => hy))

theorem Cut.fenced {seen : List Token} {before after : List Char} (h : Cut b cs seen before after)
    (hy : afterSigil b seen = false → ∃ z, y = '\n' :: z) (hb : b = false) : Fenced before y := by
  cases hs : afterSigil b seen with
  | false => exact .inr (hy hs)
  | true => exact .inl (h.fence hb hs)

/-- A cut after the first terminal is one of the text that starts with that. -/
theorem Cut.cons {seen : List Token} {before after : List Char}
    (hscan : scan (begin b cs) = some (t, rest)) (h : Cut t.isSigil rest seen before after) :
    ∃ before', Cut b cs (t :: seen) before' after := by
  obtain ⟨word, hword, hw⟩ := scan_spelled hscan
  obtain ⟨pre, heq, hbegin⟩ := begin_cut b cs
  refine ⟨pre ++ (word ++ before), ?_, fun _ hs => ?_, fun y hy => ?_⟩
  · rw [heq, hword, h.split]
    simp only [List.append_assoc]
  · cases hsigil : t.isSigil with
    | true =>
      obtain ⟨c, hc, hfence⟩ := fence_of_sigil hw hsigil
      exact ⟨c, by simp [hc], hfence⟩
    | false =>
      obtain ⟨c, hc, hfence⟩ := h.fence hsigil hs
      exact ⟨c, by simp [hc], hfence⟩
  · have hsolid : begin b cs ≠ [] := by simpa using (scan_solid hscan).1
    rw [hword, h.split] at hscan
    have hscan' := scan_cut hw hscan (h.fenced hy)
    have hstart : begin b (pre ++ (word ++ (before ++ y))) = word ++ (before ++ y) :=
      (hbegin _ fun hnil => absurd hnil hsolid).trans (begin_solid hscan' b)
    simp only [List.append_assoc]
    rw [lexFrom_some (by rwa [hstart]), List.map_cons, h.resume y hy]
    rfl

/-- A text can be cut before any of its terminals, and at its end. -/
theorem cut_lex {ls ms : List Lexeme} (h : lexFrom b cs = ls ++ ms)
    (hv : Token.invalid ∉ ls.map (·.token)) :
    ∃ before, Cut b cs (ls.map (·.token)) before (placeOf ms) := by
  induction ls generalizing b cs with
  | nil =>
    rw [List.nil_append] at h
    rw [← h, placeOf_lexFrom]
    exact cut_start b cs
  | cons l ls ih =>
    rw [List.map_cons, List.mem_cons, not_or] at hv
    obtain ⟨rest, hscan, hrest⟩ := lexFrom_cons h (Ne.symm hv.1)
    obtain ⟨before, hcut⟩ := ih hrest hv.2
    exact hcut.cons hscan

end QueryDoc.Lexer
