import QueryDoc.Proofs.Grammar.Blame
import QueryDoc.Proofs.Grammar.Continuation

/-! Where a failure is reported, measured against the text. The reported place is the furthest
miss, and each miss is where a terminal starts or where the text ends; so a rule that blames
a terminal is reported neither within the ignored input at the start nor past the end. A rule
that fails without a miss is reported at the very start. -/
namespace QueryDoc
open Lexer Rule

/-! ## The furthest place -/

namespace Furthest
variable (offsetOf : List Token → Nat)

theorem offset_le_step (f : Furthest) (s : Setback) : f.offset ≤ (step offsetOf f s).offset := by
  cases s with
  | miss rest =>
    show f.offset ≤ (if offsetOf rest > f.offset then _ else f).offset
    split
    · next h => exact Nat.le_of_lt h
    · exact Nat.le_refl _
  | gaveUp start kind =>
    rw [step]
    split <;> exact Nat.le_refl _

/-- A miss is not further than the place after it. -/
theorem le_offset_step (f : Furthest) (rest : List Token) :
    offsetOf rest ≤ (step offsetOf f (.miss rest)).offset := by
  show offsetOf rest ≤ (if offsetOf rest > f.offset then _ else f).offset
  split
  · exact Nat.le_refl _
  · next h => exact Nat.not_lt.mp h

theorem offset_le_foldl (trail : List Setback) (f : Furthest) :
    f.offset ≤ (trail.foldl (step offsetOf) f).offset := by
  induction trail generalizing f with
  | nil => exact Nat.le_refl _
  | cons s trail ih => exact Nat.le_trans (offset_le_step offsetOf f s) (ih _)

/-- No miss is further than the furthest place. -/
theorem le_offset_foldl {trail : List Setback} {rest : List Token} (h : .miss rest ∈ trail)
    (f : Furthest) : offsetOf rest ≤ (trail.foldl (step offsetOf) f).offset := by
  induction trail generalizing f with
  | nil => cases h
  | cons s trail ih =>
    rw [List.foldl_cons]
    rcases List.mem_cons.mp h with rfl | h
    · exact Nat.le_trans (le_offset_step offsetOf f rest) (offset_le_foldl offsetOf trail _)
    · exact ih h _

end Furthest

/-! ## The places of terminals -/

/-- Each terminal starts where the first one does or later, and so does the end of the text. -/
theorem Lexer.placeOf_suffix {b : Bool} {cs : List Char} {ls ms : List Lexeme}
    (h : lexFrom b cs = ls ++ ms) : placeOf ms <:+ begin b cs := by
  induction ls generalizing b cs with
  | nil =>
    rw [← placeOf_lexFrom, h]
    exact List.suffix_refl _
  | cons l ls ih =>
    rcases lexFrom_cases b cs with ⟨-, hlex⟩ | hlex | ⟨t, rest, hscan, hlex⟩
    · rw [hlex] at h
      cases h
    · -- After input that is no terminal nothing else is scanned.
      rw [hlex] at h
      have hnil : ls ++ ms = [] := (List.cons.inj h).2.symm
      rw [(List.append_eq_nil_iff.mp hnil).2]
      exact List.nil_suffix
    · rw [hlex] at h
      obtain ⟨word, hword, -⟩ := scan_spelled hscan
      have hlater : begin t.isSigil rest <:+ begin b cs :=
        (begin_suffix _ rest).trans ⟨word, hword.symm⟩
      exact (ih (List.cons.inj h).2).trans hlater

/-- The offset where the input starts that is not ignored, or the end where there is none. -/
def lead (source : String) : Nat :=
  utf8Length source.toList - utf8Length (skipIgnored source.toList)

/-! ## The place of a failure -/

namespace Production
variable {α : Type} {p : Production α} {phrase : Phrase α} {source : String} {f : Failure}

theorem misses_of_parse (h : p.parse source = .error f) :
    Misses p.whole ((lex source).map (·.token)) := by
  simp only [parse] at h
  split at h
  · cases h
  · next kind hresult => exact ⟨kind, hresult⟩

/-- What a rule for a whole text misses is not before the first terminal and not past the end. -/
theorem place_of_stumbles (hs : Sound p.rule phrase) (hm : Probes p.rule (Viable phrase))
    {rest : List Token} (h : Stumbles p.whole ((lex source).map (·.token)) rest) :
    lead source ≤ Failure.offsetBefore (Failure.offsets source.toList (lex source)) rest ∧
      Failure.offsetBefore (Failure.offsets source.toList (lex source)) rest ≤
        utf8Length source.toList := by
  obtain ⟨seen, hseen, -⟩ := probes_whole hs hm h
  obtain ⟨ls, ms, hlex, -, rfl⟩ := List.map_eq_append_iff.mp hseen
  have hplace : utf8Length (placeOf ms) ≤ utf8Length (skipIgnored source.toList) :=
    utf8Length_le (placeOf_suffix hlex)
  rw [hlex, Failure.offsetBefore_append, lead]
  omega

theorem blamesOn_whole {input : List Token} (h : BlamesOn p.rule input) :
    BlamesOn p.whole input :=
  .attempt (.bind h fun _ rest _ => (Blames.map .finish _) rest)

/-- A failure is reported where the text has significant input, or at its end. -/
theorem place_of_error (hs : Sound p.rule phrase) (hm : Probes p.rule (Viable phrase))
    (hb : BlamesOn p.rule ((lex source).map (·.token))) (h : p.parse source = .error f) :
    lead source ≤ f.offset ∧ f.offset ≤ utf8Length source.toList := by
  obtain ⟨rest, hrest⟩ := blamesOn_whole hb (misses_of_parse h)
  rw [offset_of_parse h, Furthest.ofTrail]
  constructor
  · exact Nat.le_trans (place_of_stumbles hs hm hrest).1 (Furthest.le_offset_foldl _ hrest _)
  · rcases Furthest.offset_foldl (Failure.offsetBefore (Failure.offsets source.toList (lex source)))
      (p.whole ((lex source).map (·.token))).trail .start with hstart | ⟨rest, hmiss, hoffset⟩
    · rw [hstart]
      exact Nat.zero_le _
    · rw [hoffset]
      exact (place_of_stumbles hs hm hmiss).2

/-- A failure without a miss is reported at the start of the text. -/
theorem place_of_silent (hmiss : Misses p.rule ((lex source).map (·.token)))
    (hb : ∀ rest, ¬ Stumbles p.rule ((lex source).map (·.token)) rest)
    (h : p.parse source = .error f) : f.offset = 0 := by
  rw [offset_of_parse h, Furthest.ofTrail]
  rcases Furthest.offset_foldl (Failure.offsetBefore (Failure.offsets source.toList (lex source)))
    (p.whole ((lex source).map (·.token))).trail .start with hstart | ⟨rest, hrest, -⟩
  · exact hstart
  · rcases stumbles_bind.mp (stumbles_attempt.mp hrest) with hrule | ⟨a, mid, hread, -⟩
    · exact absurd hrule (hb rest)
    · exact absurd hmiss hread.not_misses

end Production

/-- Where a source text cannot be read, the reported place is not within the ignored input at
its start and not past its end; but a number is reported at the very start where one of the
other sort is asked for. -/
theorem parse_error_place (source : String) :
    (∀ (e : Entry) (f : Failure), e.parse source = .error f →
      (¬ OtherNumber e ((lex source).map (·.token)) →
        lead source ≤ f.offset ∧ f.offset ≤ utf8Length source.toList) ∧
      (OtherNumber e ((lex source).map (·.token)) → f.offset = 0)) ∧
    ∀ f : Failure, Production.operationKind.parse source = .error f →
      lead source ≤ f.offset ∧ f.offset ≤ utf8Length source.toList := by
  constructor
  · intro e f h
    constructor
    · intro hsort
      exact Production.place_of_error (sound_entry e) (probes_entry e) (blamesOn_entry e hsort) h
    · intro hsort
      exact Production.place_of_silent hsort.silent.1 hsort.silent.2 h
  · intro f
    exact Production.place_of_error sound_operationKind probes_operationKind
      (blames_operationKind _)

/-- A float after a blank where an integer is asked for. -/
theorem otherNumber_blank : OtherNumber .intValue ((lex " 1.5").map (·.token)) := by
  have htokens : (lex " 1.5").map (·.token) = [.number "1.5"] := by decide +kernel
  rw [htokens]
  exact .float (by decide) []

theorem parse_error_place_list :
    (∃ f, Entry.value.parse ",[1 )" = .error f ∧ lead ",[1 )" ≤ f.offset ∧ f.offset ≤ 5) ∧
    (∃ f, Entry.intValue.parse " 1.5" = .error f ∧ f.offset = 0) ∧
    ∃ f, Production.operationKind.parse ",[1 )" = .error f ∧
      lead ",[1 )" ≤ f.offset ∧ f.offset ≤ 5 := by
  obtain ⟨f, hf⟩ := error_of_toOption (e := Entry.value.parse ",[1 )") (by decide +kernel)
  obtain ⟨g, hg⟩ := error_of_toOption (e := Entry.intValue.parse " 1.5") (by decide +kernel)
  obtain ⟨k, hk⟩ :=
    error_of_toOption (e := Production.operationKind.parse ",[1 )") (by decide +kernel)
  have hvalue : ¬ OtherNumber .value ((lex ",[1 )").map (·.token)) := by rintro ⟨⟩
  exact ⟨⟨f, hf, ((parse_error_place _).1 .value f hf).1 hvalue⟩,
    ⟨g, hg, ((parse_error_place _).1 .intValue g hg).2 otherNumber_blank⟩,
    k, hk, (parse_error_place _).2 k hk⟩

/-- The float is reported before the blank. -/
theorem parse_error_before_lead :
    ∃ f, Entry.intValue.parse " 1.5" = .error f ∧ f.offset < lead " 1.5" := by
  obtain ⟨f, hf⟩ := error_of_toOption (e := Entry.intValue.parse " 1.5") (by decide +kernel)
  have hoffset : f.offset = 0 :=
    Production.place_of_silent otherNumber_blank.silent.1 otherNumber_blank.silent.2 hf
  exact ⟨f, hf, by rw [hoffset]; decide⟩

end QueryDoc
