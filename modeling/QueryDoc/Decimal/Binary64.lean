/-! Binary floating-point numbers of 64 bits, as exact integers times powers of
two. Every operation computes its exact result as a fraction and rounds it once
to the nearest number, half-way cases to the even significand. -/
namespace QueryDoc

/-- A finite number: a sign and `significand * 2 ^ exponent`. -/
structure Binary64 where
  negative : Bool
  significand : Nat
  exponent : Int
deriving DecidableEq, Repr

namespace Binary64

/-- The exponent of the smallest numbers. -/
def minExponent : Int := -1074

/-- The exponent of the largest numbers. -/
def maxExponent : Int := 971

/-- The number of binary digits of a significand. -/
def precision : Nat := 53

def zero (negative : Bool) : Binary64 := ⟨negative, 0, minExponent⟩

def isZero (x : Binary64) : Bool := x.significand == 0

/-- A quotient rounded to the nearest integer, half-way cases to the even one. -/
def roundDiv (num den : Nat) : Nat :=
  let q := num / den
  let r := num % den
  if 2 * r < den ∨ (2 * r = den ∧ q % 2 = 0) then q else q + 1

/-- The fraction `num / (den * base ^ k)` as a numerator and a denominator. -/
def divPow (base num den : Nat) (k : Int) : Nat × Nat :=
  if 0 ≤ k then (num, den * base.pow k.toNat) else (num * base.pow (-k).toNat, den)

/-- The exponent of the highest power of two that a positive fraction reaches. -/
def floorLog2 (num den : Nat) : Int :=
  let e : Int := (Nat.log2 num : Int) - (Nat.log2 den : Int)
  let (n, d) := divPow 2 num den e
  if d ≤ n then e else e - 1

/-- The number nearest to a fraction, unless it is too large. -/
def ofRatio (negative : Bool) (num den : Nat) : Option Binary64 :=
  if num = 0 then some (zero negative)
  else
    let e := max (floorLog2 num den - (precision - 1)) minExponent
    let (n, d) := divPow 2 num den e
    let m := roundDiv n d
    let (m, e) := if m = Nat.pow 2 precision then (Nat.pow 2 (precision - 1), e + 1) else (m, e)
    if maxExponent < e then none else some ⟨negative, m, e⟩

/-- The number nearest to an integer, unless it is too large. -/
def ofNat (negative : Bool) (n : Nat) : Option Binary64 := ofRatio negative n 1

/-- The number of digits of a positive integer in decimal. -/
def digitCount (n : Nat) : Nat := (Nat.toDigits 10 n).length

/-- The number nearest to `digits * 10 ^ exponent`, unless it is too large. Powers
of ten far outside of the range are not computed. -/
def ofDecimal (negative : Bool) (digits : Nat) (exponent : Int) : Option Binary64 :=
  let magnitude := (digitCount digits : Int) + exponent
  if digits = 0 ∨ magnitude < -330 then some (zero negative)
  else if 330 < magnitude then none
  else
    let (num, den) := divPow 10 digits 1 (-exponent)
    ofRatio negative num den

/-- The product of two numbers, unless it is too large. -/
def mul (x y : Binary64) : Option Binary64 :=
  let (num, den) := divPow 2 (x.significand * y.significand) 1 (-(x.exponent + y.exponent))
  ofRatio (x.negative != y.negative) num den

/-- The quotient of two numbers, unless it is too large. -/
def div (x y : Binary64) : Option Binary64 :=
  let (num, den) := divPow 2 x.significand y.significand (y.exponent - x.exponent)
  ofRatio (x.negative != y.negative) num den

end Binary64
end QueryDoc
