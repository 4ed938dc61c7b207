/-! Decimal digits, and the spelling of numbers: an optional minus sign and digits, then
an optional fraction and an optional exponent. Leading zeros are allowed. -/
namespace QueryDoc

def isDigit (c : Char) : Bool := '0' ≤ c && c ≤ '9'

/-- The number that a digit stands for. -/
def digitValue (c : Char) : Nat := c.toNat - '0'.toNat

/-- The number that a run of decimal digits spells. -/
def digitsValue (cs : List Char) : Nat := cs.foldl (fun n c => 10 * n + digitValue c) 0

/-- A number written with decimal digits only, at least one; leading zeros are
allowed. -/
def natural? (cs : List Char) : Option Nat :=
  if !cs.isEmpty && cs.all isDigit then some (digitsValue cs) else none

namespace Numeral

/-- A point and the digits after it, if both are there, and the rest. -/
def fraction : List Char → List Char × List Char
  | '.' :: cs =>
    if (cs.takeWhile isDigit).isEmpty then ([], '.' :: cs)
    else ('.' :: cs.takeWhile isDigit, cs.dropWhile isDigit)
  | cs => ([], cs)

/-- The sign of an exponent, if there is one, and the rest. -/
def exponentSign : List Char → List Char × List Char
  | '+' :: cs => (['+'], cs)
  | '-' :: cs => (['-'], cs)
  | cs => ([], cs)

/-- An exponent mark, a sign and digits, if mark and digits are there, and the
rest. -/
def exponent : List Char → List Char × List Char
  | c :: cs =>
    if c = 'e' ∨ c = 'E' then
      let (sign, digits) := exponentSign cs
      if (digits.takeWhile isDigit).isEmpty then ([], c :: cs)
      else (c :: sign ++ digits.takeWhile isDigit, digits.dropWhile isDigit)
    else ([], c :: cs)
  | [] => ([], [])

/-- The minus sign of a number, if there is one, and the rest. -/
def minus : List Char → List Char × List Char
  | '-' :: cs => (['-'], cs)
  | cs => ([], cs)

/-- The longest number at the start of a text, and the rest. -/
def scan (cs : List Char) : Option (List Char × List Char) :=
  let (sign, afterSign) := minus cs
  let whole := afterSign.takeWhile isDigit
  if whole.isEmpty then none
  else
    let (frac, afterFraction) := fraction (afterSign.dropWhile isDigit)
    let (exp, rest) := exponent afterFraction
    some (sign ++ whole ++ frac ++ exp, rest)

/-- Whether a number has a fraction or an exponent. -/
def isFloat (cs : List Char) : Bool := cs.any fun c => c = '.' || c = 'e' || c = 'E'

theorem takeWhile_length_add_dropWhile (p : Char → Bool) (cs : List Char) :
    (cs.takeWhile p).length + (cs.dropWhile p).length = cs.length := by
  rw [← List.length_append, List.takeWhile_append_dropWhile]

theorem fraction_length (cs : List Char) :
    (fraction cs).1.length + (fraction cs).2.length = cs.length := by
  unfold fraction
  split
  · rename_i cs
    split
    · simp
    · have := takeWhile_length_add_dropWhile isDigit cs
      simp only [List.length_cons]
      omega
  · simp

theorem exponentSign_length (cs : List Char) :
    (exponentSign cs).1.length + (exponentSign cs).2.length = cs.length := by
  unfold exponentSign
  split
  · simp only [List.length_cons, List.length_nil]
    omega
  · simp only [List.length_cons, List.length_nil]
    omega
  · simp

theorem exponent_length (cs : List Char) :
    (exponent cs).1.length + (exponent cs).2.length = cs.length := by
  unfold exponent
  split
  · rename_i c cs
    have hs := exponentSign_length cs
    have hd := takeWhile_length_add_dropWhile isDigit (exponentSign cs).2
    split
    · dsimp only
      split
      · simp
      · simp only [List.cons_append, List.length_cons, List.length_append]
        omega
    · simp
  · simp

theorem minus_length (cs : List Char) :
    (minus cs).1.length + (minus cs).2.length = cs.length := by
  unfold minus
  split
  · simp only [List.length_cons, List.length_nil]
    omega
  · simp

/-- A number takes up at least one character. -/
theorem scan_length {cs text rest : List Char} (h : scan cs = some (text, rest)) :
    rest.length < cs.length := by
  unfold scan at h
  simp only [Option.ite_none_left_eq_some, Option.some.injEq, Prod.mk.injEq] at h
  obtain ⟨hne, -, rfl⟩ := h
  have hm := minus_length cs
  have hd := takeWhile_length_add_dropWhile isDigit (minus cs).2
  have hf := fraction_length ((minus cs).2.dropWhile isDigit)
  have he := exponent_length (fraction ((minus cs).2.dropWhile isDigit)).2
  have hpos : 0 < ((minus cs).2.takeWhile isDigit).length := by
    rw [List.length_pos_iff]
    simpa using hne
  omega

end Numeral
end QueryDoc
