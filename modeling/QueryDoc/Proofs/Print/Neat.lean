import QueryDoc.Print.Piece
import QueryDoc.Proofs.Lexical.Escape
import QueryDoc.Proofs.Lexical.Texts

/-! Printed pieces that are scanned again as they were. Each terminal is spelled, is not
continued by what follows and, if it is a sigil, is followed by a terminal at once. -/
namespace QueryDoc
open Lexer

variable {ps qs : List Piece} {t : Token}

/-! ## Terminals among pieces -/

@[simp] theorem tokensOf_nil : tokensOf [] = [] := rfl

@[simp] theorem tokensOf_token (t : Token) (ps : List Piece) :
    tokensOf (.token t :: ps) = t :: tokensOf ps := rfl

@[simp] theorem tokensOf_name (text : String) (ps : List Piece) :
    tokensOf (.name text :: ps) = .name text :: tokensOf ps := rfl

@[simp] theorem tokensOf_space (ps : List Piece) : tokensOf (.space :: ps) = tokensOf ps := rfl

@[simp] theorem tokensOf_comma (ps : List Piece) : tokensOf (.comma :: ps) = tokensOf ps := rfl

@[simp] theorem tokensOf_line (level : Nat) (ps : List Piece) :
    tokensOf (.line level :: ps) = tokensOf ps := rfl

@[simp] theorem tokensOf_append (ps qs : List Piece) :
    tokensOf (ps ++ qs) = tokensOf ps ++ tokensOf qs :=
  List.filterMap_append

/-! ## Neat pieces -/

/-- A text that continues no terminal before it. -/
def Fresh (cs : List Char) : Prop := ∀ t, Numeral.Apart (continues t) cs

/-- Pieces whose text has just their terminals. -/
inductive Neat : List Piece → Prop where
  | nil : Neat []
  | blank {p : Piece} {ps : List Piece} : p.token? = none → Neat ps → Neat (p :: ps)
  | token {t : Token} {ps : List Piece} :
      Spells t.chars t → t.isSigil = false → Numeral.Apart (continues t) (render ps) →
      Neat ps → Neat (.token t :: ps)
  | sigil {t u : Token} {ps : List Piece} :
      Spells t.chars t → t.isSigil = true → Numeral.Apart (continues t) (render (.token u :: ps)) →
      Neat (.token u :: ps) → Neat (.token t :: .token u :: ps)

theorem ignored_blanks {bs : List Char} (h : ∀ c ∈ bs, isBlank c = true) (cs : List Char) :
    Ignored (bs ++ cs) cs := by
  induction bs with
  | nil => exact .none cs
  | cons b bs ih => exact .blank (h b (by simp)) (ih fun c hc => h c (by simp [hc]))

theorem ignored_piece {p : Piece} (h : p.token? = none) (cs : List Char) :
    Ignored (p.chars ++ cs) cs := by
  refine ignored_blanks (fun c hc => ?_) cs
  match p with
  | .space =>
    rw [List.mem_singleton.mp hc]
    decide
  | .comma =>
    rcases List.mem_cons.mp hc with rfl | hc
    · decide
    · rw [List.mem_singleton.mp hc]
      decide
  | .line indent =>
    rcases List.mem_cons.mp hc with rfl | hc
    · decide
    · rw [List.eq_of_mem_replicate hc]
      decide

theorem lexFrom_token {b : Bool} (hs : Spells t.chars t)
    (ha : Numeral.Apart (continues t) (render ps)) :
    (lexFrom b (render (.token t :: ps))).map (·.token) =
      t :: (lexFrom t.isSigil (render ps)).map (·.token) := by
  have hscan : scan (render (.token t :: ps)) = some (t, render ps) := scan_exact hs ha
  rw [lexFrom_some ((begin_solid hscan b).symm ▸ hscan)]
  rfl

/-- A terminal starts where it is printed, with nothing to skip. -/
theorem Neat.solid {u : Token} (h : Neat (.token u :: ps)) :
    skipIgnored (render (.token u :: ps)) = render (.token u :: ps) := by
  cases h with
  | blank h => cases h
  | token hs _ ha _ => exact (scan_solid (scan_exact hs ha)).2
  | sigil hs _ ha _ => exact (scan_solid (scan_exact hs ha)).2

/-- Neat pieces are scanned as their terminals. -/
theorem lexFrom_render (h : Neat ps) :
    (lexFrom false (render ps)).map (·.token) = tokensOf ps := by
  induction h with
  | nil =>
    rw [lexFrom_nil rfl]
    rfl
  | @blank p ps hp _ ih =>
    have hbegin : begin false (render (p :: ps)) = begin false (render ps) :=
      skip_ignored (ignored_piece hp _)
    rw [lexFrom_congr hbegin, ih]
    exact (List.filterMap_cons_none hp).symm
  | @token t ps hs hsigil ha _ ih =>
    rw [lexFrom_token hs ha, hsigil, ih]
    rfl
  | @sigil t u ps hs hsigil ha hu ih =>
    -- The next terminal starts at once, so it is the same whether blanks are skipped or not.
    have hbegin : begin true (render (.token u :: ps)) = begin false (render (.token u :: ps)) :=
      (hu.solid).symm
    rw [lexFrom_token hs ha, hsigil, lexFrom_congr hbegin, ih]
    rfl

end QueryDoc
