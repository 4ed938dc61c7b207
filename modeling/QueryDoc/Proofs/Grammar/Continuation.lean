import QueryDoc.Proofs.Grammar.Acceptance
import QueryDoc.Proofs.Grammar.Probing
import QueryDoc.Proofs.Lexical.Cut
import QueryDoc.Proofs.Print.Neat
import QueryDoc.Proofs.Text.Lines

/-! Where a failure is reported. The place is one where a terminal was missed, so what was
read before it can be continued by terminals; cut there, the source text has these
terminals, and the others can be written after it on lines of their own. -/
namespace QueryDoc
open Lexer Rule

variable {α : Type}

/-! ## Terminals on lines of their own -/

theorem continues_newline (t : Token) : continues t '\n' = false := by
  cases t with
  | string content block => cases block <;> rfl
  | _ => rfl

theorem continues_sigil {t : Token} (h : t.isSigil = true) (c : Char) : continues t c = false := by
  cases t with
  | dollar | atSign => rfl
  | _ => cases h

/-- Pieces with some terminals, and a new line after each that is not a sigil. -/
def onLines (ts : List Token) : List Piece :=
  ts.flatMap fun t => if t.isSigil then [.token t] else [.token t, .line 0]

theorem lexFrom_line (ps : List Piece) :
    lexFrom false (render (.line 0 :: ps)) = lexFrom false (render ps) :=
  lexFrom_congr (skip_ignored (ignored_piece rfl _))

/-- Terminals that can be written are scanned again, also where a sigil comes before them. -/
theorem lexFrom_onLines {ts : List Token} (h : Writable ts) (b : Bool) :
    (lexFrom b (render (onLines ts))).map (·.token) = ts := by
  induction ts generalizing b with
  | nil =>
    rw [lexFrom_nil (by cases b <;> rfl)]
    rfl
  | cons t ts ih =>
    obtain ⟨ht, hts⟩ := List.forall_mem_cons.mp h
    have hs : Spells t.chars t := by
      obtain ⟨word, hword, hw⟩ := scan_spelled ht
      rwa [hword, List.append_nil]
    cases hsigil : t.isSigil with
    | true =>
      have hlines : onLines (t :: ts) = .token t :: onLines ts := by simp [onLines, hsigil]
      rw [hlines, lexFrom_token hs fun c _ => continues_sigil hsigil c, ih hts]
    | false =>
      have hlines : onLines (t :: ts) = .token t :: .line 0 :: onLines ts := by
        simp [onLines, hsigil]
      have ha : Numeral.Apart (continues t) (render (.line 0 :: onLines ts)) :=
        .cons (continues_newline t) _
      rw [hlines, lexFrom_token hs ha, hsigil, lexFrom_line, ih hts]

/-- After a cut any terminals that can be written can follow. -/
theorem Lexer.Cut.continue {b : Bool} {cs before after : List Char} {seen more : List Token}
    (h : Cut b cs seen before after) (hmore : Writable more) :
    ∃ y, (lexFrom b (before ++ y)).map (·.token) = seen ++ more := by
  cases hs : afterSigil b seen with
  | true =>
    refine ⟨render (onLines more), ?_⟩
    rw [h.resume _ (by simp [hs]), lexFrom_onLines hmore]
  | false =>
    refine ⟨render (.line 0 :: onLines more), ?_⟩
    have hline : ∃ z, render (.line 0 :: onLines more) = '\n' :: z := ⟨_, rfl⟩
    rw [h.resume _ fun _ => hline, hs, lexFrom_line, lexFrom_onLines hmore]

/-! ## The reported place -/

theorem Furthest.offset_step (offsetOf : List Token → Nat) (f : Furthest) (s : Setback) :
    (step offsetOf f s).offset = f.offset ∨
      ∃ rest, s = .miss rest ∧ (step offsetOf f s).offset = offsetOf rest := by
  cases s with
  | miss rest =>
    by_cases h : offsetOf rest > f.offset
    · exact .inr ⟨rest, rfl, by rw [step, if_pos h]⟩
    · exact .inl (by rw [step, if_neg h])
  | gaveUp rest kind =>
    left
    rw [step]
    split <;> rfl

/-- The furthest place is one where a terminal was missed, or the first one. -/
theorem Furthest.offset_foldl (offsetOf : List Token → Nat) (trail : List Setback) (f : Furthest) :
    (trail.foldl (step offsetOf) f).offset = f.offset ∨
      ∃ rest, .miss rest ∈ trail ∧ (trail.foldl (step offsetOf) f).offset = offsetOf rest := by
  induction trail generalizing f with
  | nil => exact .inl rfl
  | cons s trail ih =>
    rw [List.foldl_cons]
    rcases ih (step offsetOf f s) with hsame | ⟨rest, hmem, heq⟩
    · rw [hsame]
      rcases offset_step offsetOf f s with hstart | ⟨rest, rfl, heq⟩
      · exact .inl hstart
      · exact .inr ⟨rest, List.mem_cons_self, heq⟩
    · exact .inr ⟨rest, List.mem_cons_of_mem s hmem, heq⟩

/-- The offset before the last terminals is that of the place where they start. -/
theorem Failure.offsetBefore_append (source : List Char) (ls ms : List Lexeme) :
    offsetBefore (offsets source (ls ++ ms)) (ms.map (·.token)) =
      utf8Length source - utf8Length (placeOf ms) := by
  have hindex : (offsets source (ls ++ ms)).size - 1 - (ms.map (·.token)).length = ls.length := by
    simp [offsets]
  rw [offsetBefore, hindex]
  cases ms with
  | nil => simp [offsets, placeOf, utf8Length]
  | cons m ms => simp [offsets, placeOf]

/-! ## Continuing a source text -/

namespace Production

variable {p : Production α} {phrase : Phrase α}

/-- A rule for a whole text misses terminals where what it stands for could go on or end. -/
theorem probes_whole (hs : Sound p.rule phrase) (hr : Probes p.rule (Viable phrase)) :
    Probes p.whole (Viable phrase) := by
  refine (Probes.bind hs hr fun us a hus => .map (.finish ?_) _).attempt
  rw [List.append_nil]
  exact .of_phrase hus

/-- A source text that is read if what comes after an offset is replaced by something else. -/
def Continues (p : Production α) (source : String) (offset : Nat) : Prop :=
  ∃ before after : String, before ++ after = source ∧ utf8Length before.toList = offset ∧
    ∃ (more : String) (a : α), p.parse (before ++ more) = .ok a

theorem continues_of_cut {source : String} {seen : List Token} {before after : List Char}
    (hr : ∀ ⦃ts a⦄, phrase ts a → Reads p.rule ts a []) (hv : Viable phrase seen)
    (h : Cut false source.toList seen before after) :
    p.Continues source (utf8Length before) := by
  obtain ⟨more, a, hmore, ha⟩ := hv
  obtain ⟨y, hy⟩ := h.continue hmore
  refine ⟨.ofList before, .ofList after, ?_, by rw [String.toList_ofList], .ofList y, a, ?_⟩
  · rw [← String.ofList_append, ← h.split, String.ofList_toList]
  · rw [parse_ok, lex, ← String.ofList_append, String.toList_ofList, hy]
    exact hr ha

theorem offset_of_parse {source : String} {f : Failure} (h : p.parse source = .error f) :
    f.offset = (Furthest.ofTrail (Failure.offsetBefore (Failure.offsets source.toList (lex source)))
      (p.whole ((lex source).map (·.token))).trail).offset := by
  simp only [parse] at h
  split at h
  · cases h
  · cases h
    rfl

/-- A failure can be repaired from the reported place on, if what was read before a missed
terminal is always viable. -/
theorem continues_of_error (hp : phrase.Proper) (hs : Sound p.rule phrase)
    (hr : ∀ ⦃ts a⦄, phrase ts a → Reads p.rule ts a []) (hm : Probes p.rule (Viable phrase))
    (hnil : Viable phrase []) {source : String} {f : Failure} (h : p.parse source = .error f) :
    p.Continues source f.offset := by
  rw [offset_of_parse h]
  rcases Furthest.offset_foldl (Failure.offsetBefore (Failure.offsets source.toList (lex source)))
    (p.whole ((lex source).map (·.token))).trail .start with hstart | ⟨rest, hmiss, hoffset⟩
  · rw [Furthest.ofTrail, hstart]
    exact continues_of_cut hr hnil (.whole false source.toList)
  · obtain ⟨seen, hseen, hv⟩ := probes_whole hs hm hmiss
    obtain ⟨ls, ms, hlex, rfl, rfl⟩ := List.map_eq_append_iff.mp hseen
    have hvalid : Token.invalid ∉ ls.map (·.token) := by
      obtain ⟨more, a, -, ha⟩ := hv
      exact fun hmem => hp ha (List.mem_append_left more hmem)
    obtain ⟨before, hcut⟩ := cut_lex hlex hvalid
    have hplace : utf8Length source.toList - utf8Length (placeOf ms) = utf8Length before := by
      rw [hcut.split, utf8Length_append, Nat.add_sub_cancel]
    rw [Furthest.ofTrail, hoffset, hlex, Failure.offsetBefore_append, hplace]
    exact continues_of_cut hr hv hcut

end Production

/-- Where a source text cannot be read, the reported place is after a beginning of one that
can be read as the same construct. -/
theorem parse_error_continues (source : String) :
    (∀ (e : Entry) (f : Failure), e.parse source = .error f →
      e.production.Continues source f.offset) ∧
    ∀ f : Failure, Production.operationKind.parse source = .error f →
      Production.operationKind.Continues source f.offset := by
  constructor
  · intro e f
    exact Production.continues_of_error (proper_entry e) (sound_entry e)
      (fun _ _ => (reads_entry e).mpr) (probes_entry e) (viable_nil e)
  · intro f
    refine Production.continues_of_error proper_operationKind sound_operationKind ?_
      probes_operationKind ⟨[.name "query"], .query, by decide, .keyword .query⟩
    rintro _ k ⟨⟩
    exact complete_operationKind k

theorem parse_error_continues_list :
    (∃ f, Entry.value.parse "[1 )" = .error f ∧
      Entry.value.production.Continues "[1 )" f.offset) ∧
    ∃ f, Production.operationKind.parse "[1 )" = .error f ∧
      Production.operationKind.Continues "[1 )" f.offset := by
  obtain ⟨f, hf⟩ := error_of_toOption (e := Entry.value.parse "[1 )") (by decide +kernel)
  obtain ⟨g, hg⟩ :=
    error_of_toOption (e := Production.operationKind.parse "[1 )") (by decide +kernel)
  exact ⟨⟨f, hf, (parse_error_continues _).1 .value f hf⟩,
    g, hg, (parse_error_continues _).2 g hg⟩

end QueryDoc
