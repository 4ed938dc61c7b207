import QueryDoc.Decimal.Shortest
import QueryDoc.Lexical.Numeral

/-! The decimal text of floating-point numbers: how it is written and read. -/
namespace QueryDoc

/-- Where the text of a number turns from positional to scientific notation:
positional between these powers of ten, the upper one excluded. -/
structure FloatStyle where
  minPositional : Int
  maxPositional : Int
deriving DecidableEq, Repr

namespace FloatStyle

/-- Numbers from `1e-5` up to `1e16` are written out. -/
def literal : FloatStyle := ⟨-5, 16⟩

end FloatStyle

namespace Decimal

/-- Digits with a point, and with zeros up to the point and one after it where
they are missing. -/
def positional (d : Decimal) : List Char :=
  let digits := Nat.toDigits 10 d.digits
  let whole : Int := digits.length + d.exponent
  if 0 ≤ d.exponent then digits ++ List.replicate d.exponent.toNat '0' ++ ['.', '0']
  else if 0 < whole then digits.take whole.toNat ++ '.' :: digits.drop whole.toNat
  else ['0', '.'] ++ List.replicate (-whole).toNat '0' ++ digits

/-- One digit, the others after a point, and the power of ten with its sign. -/
def scientific (d : Decimal) : List Char :=
  let digits := Nat.toDigits 10 d.digits
  let power : Int := d.exponent + digits.length - 1
  let mantissa := match digits with
    | [c] => [c]
    | c :: cs => c :: '.' :: cs
    | [] => []
  mantissa ++ 'e' :: (if power < 0 then '-' else '+') :: Nat.toDigits 10 power.natAbs

/-- The text of a decimal in a style. -/
def chars (style : FloatStyle) (d : Decimal) : List Char :=
  let power : Int := d.exponent + (Binary64.digitCount d.digits : Int) - 1
  if style.minPositional ≤ power ∧ power < style.maxPositional then d.positional
  else d.scientific

end Decimal

namespace Binary64

/-- The text of a number: the fewest digits that read back, and always a point or
an exponent. Zero keeps its sign. -/
def toText (x : Binary64) : String :=
  let sign := if x.negative then ['-'] else []
  let body :=
    if x.isZero then ['0', '.', '0'] else (Decimal.shortest x).chars FloatStyle.literal
  String.ofList (sign ++ body)

/-- What a decimal text stands for. -/
inductive Reading where
  | finite (x : Binary64)
  /-- An infinity, a number too large, or no number at all. -/
  | nonfinite
deriving DecidableEq, Repr

def Reading.ofOption : Option Binary64 → Reading
  | some x => .finite x
  | none => .nonfinite

/-- The sign at the start of a text, minus being true, and the rest. -/
def readSign : List Char → Bool × List Char
  | '-' :: cs => (true, cs)
  | '+' :: cs => (false, cs)
  | cs => (false, cs)

def lower (c : Char) : Char :=
  if 'A' ≤ c && c ≤ 'Z' then Char.ofNat (c.toNat + 32) else c

/-- The words for what is no finite number, in small letters. -/
def nonfiniteWords : List (List Char) :=
  ["inf".toList, "infinity".toList, "nan".toList]

/-- The exponent that a text ends in, zero if the text is empty. -/
def readExponent? : List Char → Option Int
  | [] => some 0
  | c :: cs =>
    if c = 'e' ∨ c = 'E' then
      let (negative, digits) := readSign cs
      (natural? digits).map fun n => if negative then -(n : Int) else n
    else none

/-- The digits after a point, if there is one, and the rest. -/
def readFraction : List Char → List Char × List Char
  | '.' :: cs => (cs.takeWhile isDigit, cs.dropWhile isDigit)
  | cs => ([], cs)

/-- Reads a decimal text: a sign, digits with or without a point, of which there
is at least one, and an exponent; or a word for what is not finite. -/
def read? (cs : List Char) : Option Reading :=
  let (negative, body) := readSign cs
  if body.map lower ∈ nonfiniteWords then some .nonfinite
  else
    let whole := body.takeWhile isDigit
    let (frac, rest) := readFraction (body.dropWhile isDigit)
    if whole.isEmpty ∧ frac.isEmpty then none
    else
      (readExponent? rest).map fun e =>
        .ofOption (ofDecimal negative (digitsValue (whole ++ frac)) (e - frac.length))

end Binary64
end QueryDoc
