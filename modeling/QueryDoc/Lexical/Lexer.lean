import QueryDoc.Lexical.Name
import QueryDoc.Lexical.Numeral
import QueryDoc.Lexical.Token

/-! Cutting a source text into terminals. Each terminal is the longest that
starts where it stands; between terminals there may be ignored input, which is
blanks, commas, byte order marks and comments, but none after a sigil. -/
namespace QueryDoc.Lexer

def isBlank (c : Char) : Bool :=
  c = ' ' || c = '\t' || c = '\n' || c = '\r' || c = ',' || c = '\ufeff'

/-- What follows the ignored input at the start of a text, when that text is or
is not the rest of a comment. -/
def skip (inComment : Bool) : List Char → List Char
  | [] => []
  | c :: cs =>
    if inComment then skip (c ≠ '\n' && c ≠ '\r') cs
    else if isBlank c then skip false cs
    else if c = '#' then skip true cs
    else c :: cs

/-- What follows the ignored input at the start of a text. -/
def skipIgnored (cs : List Char) : List Char := skip false cs

/-- A name or a number at the start of a text, and the rest. -/
def scanWord (cs : List Char) : Option (Token × List Char) :=
  if cs.head?.any isNameStart then
    some (.name (String.ofList (cs.takeWhile isNameChar)), cs.dropWhile isNameChar)
  else
    (Numeral.scan cs).map fun (text, rest) => (.number (String.ofList text), rest)

/-- The content of a string on one line, after its opening quote, and the rest. -/
def scanString (cs : List Char) : Option (Token × List Char) :=
  (Quoted.close cs).map fun (inside, rest) =>
    (.string (String.ofList (Quoted.decode inside)) false, rest)

/-- The content of a block, after its opening quotes, and the rest. -/
def scanBlock (cs : List Char) : Option (Token × List Char) :=
  (Quoted.closeBlock false cs).map fun (inside, rest) =>
    (.string (String.ofList (Quoted.decodeBlock inside)) true, rest)

/-- The terminal at the start of a text, and the rest. -/
def scan : List Char → Option (Token × List Char)
  | '!' :: cs => some (.bang, cs)
  | '$' :: cs => some (.dollar, cs)
  | '@' :: cs => some (.atSign, cs)
  | '(' :: cs => some (.parenL, cs)
  | ')' :: cs => some (.parenR, cs)
  | '[' :: cs => some (.bracketL, cs)
  | ']' :: cs => some (.bracketR, cs)
  | '\x7b' :: cs => some (.braceL, cs)
  | '\x7d' :: cs => some (.braceR, cs)
  | '.' :: '.' :: '.' :: cs => some (.spread, cs)
  | ':' :: cs => some (.colon, cs)
  | '=' :: cs => some (.equals, cs)
  | '"' :: '"' :: '"' :: cs => scanBlock cs
  | '"' :: cs => scanString cs
  | cs => scanWord cs

theorem skip_length (b : Bool) (cs : List Char) : (skip b cs).length ≤ cs.length := by
  fun_induction skip b cs with
  | case1 => simp
  | case5 => simp
  | case2 _ _ ih | case3 _ _ _ _ ih | case4 _ _ _ _ ih =>
    simp only [List.length_cons]
    omega

theorem scanWord_length {cs rest : List Char} {t : Token} (h : scanWord cs = some (t, rest)) :
    rest.length < cs.length := by
  unfold scanWord at h
  split at h
  · rename_i hstart
    simp only [Option.some.injEq, Prod.mk.injEq] at h
    obtain ⟨-, rfl⟩ := h
    match cs with
    | [] => simp at hstart
    | c :: cs =>
      have hc : isNameChar c = true := by
        simp only [List.head?_cons, Option.any_some] at hstart
        simp [isNameChar, hstart]
      have := Numeral.takeWhile_length_add_dropWhile isNameChar cs
      simp only [List.dropWhile_cons, hc, if_true, List.length_cons]
      omega
  · simp only [Option.map_eq_some_iff, Prod.mk.injEq, Prod.exists] at h
    obtain ⟨text, r, hscan, -, rfl⟩ := h
    exact Numeral.scan_length hscan

theorem scanString_length {cs rest : List Char} {t : Token}
    (h : scanString cs = some (t, rest)) : rest.length < cs.length := by
  simp only [scanString, Option.map_eq_some_iff, Prod.mk.injEq, Prod.exists] at h
  obtain ⟨_, _, hclose, -, rfl⟩ := h
  exact Quoted.close_length hclose

theorem scanBlock_length {cs rest : List Char} {t : Token}
    (h : scanBlock cs = some (t, rest)) : rest.length < cs.length := by
  simp only [scanBlock, Option.map_eq_some_iff, Prod.mk.injEq, Prod.exists] at h
  obtain ⟨_, _, hclose, -, rfl⟩ := h
  exact Quoted.closeBlock_length hclose

/-- A terminal takes up at least one character. -/
theorem scan_length {cs rest : List Char} {t : Token} (h : scan cs = some (t, rest)) :
    rest.length < cs.length := by
  unfold scan at h
  split at h
  case h_13 =>
    have := scanBlock_length h
    simp only [List.length_cons]
    omega
  case h_14 =>
    have := scanString_length h
    simp only [List.length_cons]
    omega
  case h_15 => exact scanWord_length h
  all_goals
    simp only [Option.some.injEq, Prod.mk.injEq] at h
    obtain ⟨-, rfl⟩ := h
    simp only [List.length_cons]
    omega

/-- A terminal of a source text and what remains of the text from it on, which
tells its place. -/
structure Lexeme where
  token : Token
  place : List Char
deriving DecidableEq, Repr

/-- The terminals of a text, which directly follows a sigil or does not. Where no
terminal starts, `Token.invalid` ends them. -/
def lexFrom (afterSigil : Bool) (cs : List Char) : List Lexeme :=
  let start := if afterSigil then cs else skipIgnored cs
  if start.isEmpty then []
  else
    match _h : scan start with
    | some (t, rest) => ⟨t, start⟩ :: lexFrom t.isSigil rest
    | none => [⟨.invalid, start⟩]
termination_by cs.length
decreasing_by
  have hs : start.length ≤ cs.length := by
    simp only [start]
    split
    · exact Nat.le_refl _
    · exact skip_length false cs
  have := scan_length ‹_›
  omega

/-- The terminals of a source text. -/
def lex (source : String) : List Lexeme := lexFrom false source.toList

/-- Where the next terminal starts. -/
def begin (afterSigil : Bool) (cs : List Char) : List Char :=
  if afterSigil then cs else skipIgnored cs

/-- The terminals of a text from a place on; no ignored input is skipped there. -/
def terminalsAt (place : List Char) : List Token := (lexFrom true place).map (·.token)

end QueryDoc.Lexer
