import QueryDoc.Decimal.Binary64

/-! The shortest decimal that reads back as a given number. Of the decimals with
the fewest digits it is the one nearest to the number, and of two equally near
ones the even one. -/
namespace QueryDoc

/-- A positive decimal: `digits * 10 ^ exponent`. -/
structure Decimal where
  digits : Nat
  exponent : Int
deriving DecidableEq, Repr

namespace Decimal

/-- Drops the zeros at the end of the digits, as far as the fuel reaches. -/
def dropZeros : Nat → Decimal → Decimal
  | 0, d => d
  | fuel + 1, d =>
    if d.digits ≠ 0 ∧ d.digits % 10 = 0 then dropZeros fuel ⟨d.digits / 10, d.exponent + 1⟩
    else d

/-- The exponent of the highest power of ten that a positive fraction reaches. -/
def floorLog10 (num den : Nat) : Int :=
  let e : Int := (Binary64.digitCount num : Int) - (Binary64.digitCount den : Int)
  let (n, d) := Binary64.divPow 10 num den e
  if d ≤ n then e else e - 1

/-- The numbers that round to a given one, in quarters of its last place: the
ends of the interval around `4 * significand`. Below a power of two the numbers
lie closer together. -/
def interval (x : Binary64) : Nat × Nat :=
  let m := 4 * x.significand
  let closer := x.significand = Nat.pow 2 (Binary64.precision - 1)
    ∧ Binary64.minExponent < x.exponent
  (if closer then m - 1 else m - 2, m + 2)

/-- Whether a decimal lies in the interval of a number. The ends belong to it
where the significand is even. -/
def reads (x : Binary64) (d : Decimal) : Bool :=
  let (low, high) := interval x
  let (scale, unit) := Binary64.divPow 2 1 1 (2 - x.exponent)
  let (num, den) := Binary64.divPow 10 d.digits 1 (-d.exponent)
  let value := num * unit
  let even := x.significand % 2 = 0
  let low := low * scale * den
  let high := high * scale * den
  if even then low ≤ value && value ≤ high else low < value && value < high

/-- The decimal with a given last place that is next to the number `num / den`
and reads back as it; the lower neighbour `t` and the upper one `t + 1` are
tried. -/
def onGrid? (x : Binary64) (num den : Nat) (place : Int) : Option Decimal :=
  let (n, d) := Binary64.divPow 10 num den place
  let t := n / d
  let r := n % d
  let lower : Decimal := ⟨t, place⟩
  let upper : Decimal := ⟨t + 1, place⟩
  match reads x lower, reads x upper with
  | true, true => some (if 2 * r < d ∨ (2 * r = d ∧ t % 2 = 0) then lower else upper)
  | true, false => some lower
  | false, true => some upper
  | false, false => none

/-- Tries finer and finer grids, from a given last place on. -/
def search (x : Binary64) (num den : Nat) : Nat → Int → Decimal
  | 0, place =>
    let (n, d) := Binary64.divPow 10 num den place
    ⟨Binary64.roundDiv n d, place⟩
  | fuel + 1, place =>
    match onGrid? x num den place with
    | some d => d
    | none => search x num den fuel (place - 1)

/-- The shortest decimal of a positive number; seventeen digits always do. -/
def shortest (x : Binary64) : Decimal :=
  let (num, den) := Binary64.divPow 2 x.significand 1 (-x.exponent)
  dropZeros 400 (search x num den 17 (floorLog10 num den))

end Decimal
end QueryDoc
