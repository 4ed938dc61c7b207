import QueryDoc.Grammar.Production
import QueryDoc.Proofs.Grammar.Acceptance
import QueryDoc.Proofs.Grammar.Calls
import QueryDoc.Proofs.Text.Lines

/-! Reading comes to an end. A cursor in a source text moves on over each production that succeeds,
goes back over each one that fails where something else can be read, and so gets to the end of each
repetition and of the text. -/
namespace QueryDoc
open Lexer QueryDoc.Action

namespace Symbol
variable {α : Type}

/-! ## Progress and repetition -/

theorem read_suffix {s : Symbol α} {c c' : Cursor} {a : α} (h : s.read c = some (.ok a, c')) :
    c'.place <:+ c.place ∧ c'.place.length < c.place.length :=
  (agrees_read s c.place).reads_more s.productive h

/-- A production that succeeds has moved on by at least one byte. -/
theorem read_moves_on {s : Symbol α} {c c' : Cursor} {a : α} (h : s.read c = some (.ok a, c')) :
    ∃ read, c.place = read ++ c'.place ∧ 0 < utf8Length read := by
  obtain ⟨⟨read, hread⟩, hless⟩ := read_suffix h
  refine ⟨read, hread.symm, utf8Length_pos ?_⟩
  rintro rfl
  rw [← hread] at hless
  exact Nat.lt_irrefl _ hless

theorem agrees_many (s : Symbol α) (place : List Char) :
    AgreesAt (many s.read) (Rule.many s.rule) place :=
  .many s.productive fun later _ => agrees_read s later

theorem agrees_many1 (s : Symbol α) (place : List Char) :
    AgreesAt (Engine.many1 s.read) (Rule.many1 s.rule) place :=
  .many1 s.productive fun later _ => agrees_read s later

/-! ## Whole texts -/

/-- A production for a whole text: nothing may follow. -/
def whole (s : Symbol α) (kind : Kind) : Action α :=
  attempt do
    let a ← s.read
    finish kind
    return a

theorem agrees_whole (s : Symbol α) (kind : Kind) (place : List Char) :
    AgreesAt (s.whole kind) (Production.whole ⟨kind, s.rule⟩) place :=
  AgreesAt.attempt <| (agrees_read s place).bind fun _ _ _ _ =>
    (AgreesAt.finish kind).bind fun _ _ _ _ => .pure _

/-- A cursor at the start of a source text reads what the text is parsed as. -/
theorem whole_parse (s : Symbol α) (kind : Kind) (source : String) :
    ∃ result c', s.whole kind ⟨begin false source.toList, []⟩ = some (result, c') ∧
      result.toOption = (Production.parse ⟨kind, s.rule⟩ source).toOption := by
  have hlex : terminalsAt (begin false source.toList) = (lex source).map (·.token) :=
    terminalsAt_begin false source.toList
  rcases agrees_whole s kind (begin false source.toList) [] with
    ⟨a, later, trail, -, hread, hrule⟩ | ⟨k, later, trail, -, hread, hrule⟩
  · refine ⟨_, _, hread, ?_⟩
    rw [hlex] at hrule
    simp only [Production.parse, hrule, Except.toOption]
  · refine ⟨_, _, hread, ?_⟩
    rw [hlex] at hrule
    simp only [Production.parse, hrule, Except.toOption]

/-! ## Termination -/

/-- Reading comes to an end, with what the text is parsed as. At any place of a text, a production
does what its rule does, and if it succeeds the cursor has moved on by at least one byte and not
past the end. An action that fails may leave the cursor anywhere, but where something else is read
after that, the cursor is back where it was; looking ahead never moves it, and neither does a name
that is not the word asked for. A production can be repeated from there: each part leaves less of
the text, and nothing but an attempt that goes back ends the repetition. Other productions are
called where less of the text is left, or at the same place with a lower rank, so that calls are
not nested without end. -/
theorem parsing_terminates {source : String} {before : List Char} {c : Cursor}
    (hsource : source.toList = before ++ c.place) :
    (∀ (α : Type) (s : Symbol α), AgreesAt s.read s.rule c.place ∧
      ∀ (a : α) (c' : Cursor), s.read c = some (.ok a, c') →
        ∃ read, c.place = read ++ c'.place ∧
          utf8Length before + 1 ≤ utf8Length (before ++ read) ∧
          utf8Length (before ++ read) ≤ utf8Length source.toList) ∧
    (∀ (α : Type) (r : Action α),
      (∀ kind c', r c = some (.error kind, c') → Rewinds r c) ∧
      ∀ kind result c', notFollowedBy kind r c = some (result, c') → c'.place = c.place) ∧
    (∀ word kind missed c', keyword word kind c = some (.error missed, c') → c'.place = c.place) ∧
    (∀ (α : Type) (s : Symbol α),
      AgreesAt (many s.read) (Rule.many s.rule) c.place ∧
      AgreesAt (Engine.many1 s.read) (Rule.many1 s.rule) c.place ∧
      (∃ as c', many s.read c = some (.ok as, c') ∧ Repeats s.read c as c') ∧
      ((∃ as c', Engine.many1 s.read c = some (.ok as, c') ∧ as ≠ [] ∧ Repeats s.read c as c') ∨
        ∃ kind c', Engine.many1 s.read c = some (.error kind, c') ∧ c'.place = c.place)) ∧
    (∀ (α : Type) (s : Symbol α),
      (∀ call : {β : Type} → Symbol β → Action β,
        (∀ (β : Type) (q : Symbol β) (c' : Cursor),
          q.Lower c'.place s c.place → call q c' = q.read c') →
        s.read c = s.body call c) ∧
      ∀ n, s.depth c.place < n → run n s c = s.read c) ∧
    ∀ (α : Type) (s : Symbol α) (kind : Kind),
      ∃ result c', s.whole kind ⟨begin false source.toList, []⟩ = some (result, c') ∧
        result.toOption = (Production.parse ⟨kind, s.rule⟩ source).toOption := by
  refine ⟨fun α s => ⟨agrees_read s _, fun a c' h => ?_⟩,
    fun α r => ⟨fun kind c' => rewinds_of_error, fun kind result c' => notFollowedBy_place⟩,
    fun word kind missed c' h => restores_keyword word kind h,
    fun α s => ⟨agrees_many s _, agrees_many1 s _, ?_, ?_⟩,
    fun α s => ⟨fun call => read_of_lower, fun n => run_of_depth⟩,
    fun α s kind => whole_parse s kind source⟩
  · obtain ⟨read, hread, hpos⟩ := read_moves_on h
    refine ⟨read, hread, ?_, ?_⟩
    · rw [utf8Length_append]
      omega
    · rw [hsource, hread]
      simp only [utf8Length_append]
      omega
  · obtain ⟨⟨result, c'⟩, h⟩ := (agrees_many s c.place).ends c.trail
    obtain ⟨as, rfl, hrepeats⟩ := repeats_of_many h
    exact ⟨as, c', h, hrepeats⟩
  · obtain ⟨⟨result, c'⟩, h⟩ := (agrees_many1 s c.place).ends c.trail
    rcases repeats_of_many1 (fun _ _ hr => (read_suffix hr).2) h with
      ⟨as, rfl, hne, hrepeats⟩ | ⟨kind, rfl, hplace⟩
    · exact .inl ⟨as, c', h, hne, hrepeats⟩
    · exact .inr ⟨kind, c', h, hplace⟩

/-- A cursor before a list. -/
def bracketed : Cursor := ⟨"[1, $y]".toList, []⟩

/-- The list is read after a name and a blank, with the cursor at the end of the text. No type is
read there: that fails after the bracket, and an attempt goes back before it. -/
theorem parsing_terminates_bracketed :
    (listValue.read bracketed).map (fun o => (o.1.toOption, o.2.place)) =
        some (some (.list [.int "1", .variable ⟨⟨"y"⟩⟩]), []) ∧
      (∃ read, bracketed.place = read ++ [] ∧
        2 + 1 ≤ utf8Length ("x ".toList ++ read) ∧
        utf8Length ("x ".toList ++ read) ≤ utf8Length "x [1, $y]".toList) ∧
      (typeRef.read bracketed).map (fun o => (o.1.toOption, o.2.place)) =
        some (none, "1, $y]".toList) ∧
      Rewinds typeRef.read bracketed ∧
      run 29 listValue bracketed = listValue.read bracketed := by
  have hlist : (listValue.read bracketed).map (fun o => (o.1.toOption, o.2.place)) =
      some (some (.list [.int "1", .variable ⟨⟨"y"⟩⟩]), []) := by decide +kernel
  have htype : (typeRef.read bracketed).map (fun o => (o.1.toOption, o.2.place)) =
      some (none, "1, $y]".toList) := by decide +kernel
  obtain ⟨hforward, hback, -, -, hcalls, -⟩ :=
    @parsing_terminates "x [1, $y]" "x ".toList bracketed rfl
  refine ⟨hlist, ?_, htype, ?_, (hcalls _ _).2 29 (by decide)⟩
  · obtain ⟨⟨result, c'⟩, hread, hends⟩ := Option.map_eq_some_iff.mp hlist
    obtain ⟨hresult, hplace⟩ := Prod.mk.inj hends
    obtain rfl := ok_of_toOption hresult
    have hmoved := (hforward _ listValue).2 _ c' hread
    rwa [hplace] at hmoved
  · obtain ⟨⟨result, c'⟩, hread, hends⟩ := Option.map_eq_some_iff.mp htype
    cases result with
    | ok a => cases (Prod.mk.inj hends).1
    | error kind => exact (hback _ typeRef.read).1 kind c' hread

end Symbol
end QueryDoc
