import Schemata.Decimal.Binary64

namespace Schemata

/-- The number `digits * 10 ^ exponent`. -/
structure Decimal where
  digits : Nat
  exponent : Int
deriving DecidableEq

namespace Decimal

/-- The decimal digits of `digits`, most significant first. -/
def digitChars (d : Decimal) : List Char := Nat.toDigits 10 d.digits

/-- Four times the value and the two ends of the interval that rounds to it, over one denominator:
`low`, `middle`, `high`, `den`, and whether the ends themselves round to it. -/
structure Interval where
  low : Nat
  middle : Nat
  high : Nat
  den : Nat
  closed : Bool

/-- The numbers that round to the magnitude of `x`. -/
def Interval.of (x : Binary64) : Interval :=
  let m := x.significand
  let below := if m = Nat.pow 2 52 ∧ x.exponent ≠ -1074 then 1 else 2
  let e := x.exponent - 2
  let up := Nat.pow 2 e.toNat
  ⟨(4 * m - below) * up, 4 * m * up, (4 * m + 2) * up, Nat.pow 2 (-e).toNat, m % 2 = 0⟩

/-- The decimal lies in the interval. -/
def Interval.holds (i : Interval) (d : Decimal) : Bool :=
  let value := d.digits * Nat.pow 10 d.exponent.toNat * i.den
  let scale := Nat.pow 10 (-d.exponent).toNat
  if i.closed then i.low * scale ≤ value && value ≤ i.high * scale
  else i.low * scale < value && value < i.high * scale

/-- The two points around the middle on the grid of step `10 ^ exponent`, the nearer first, the even one
first on a tie. -/
def Interval.neighbours (i : Interval) (exponent : Int) : List Decimal :=
  let num := i.middle * Nat.pow 10 (-exponent).toNat
  let den := i.den * Nat.pow 10 exponent.toNat
  let floor := num / den
  let twice := 2 * (num % den)
  let floorFirst := twice < den || (twice == den && floor % 2 == 0)
  if floorFirst then [⟨floor, exponent⟩, ⟨floor + 1, exponent⟩] else [⟨floor + 1, exponent⟩, ⟨floor, exponent⟩]

/-- The first hit on the grids of step `10 ^ exponent`, `10 ^ (exponent - 1)`, … -/
def Interval.coarsest (i : Interval) : Nat → Int → Decimal
  | 0, exponent => ⟨i.middle * Nat.pow 10 (-exponent).toNat / (i.den * Nat.pow 10 exponent.toNat), exponent⟩
  | steps + 1, exponent =>
    match (i.neighbours exponent).find? i.holds with
    | some d => d
    | none => i.coarsest steps (exponent - 1)

/-- The shortest decimal that rounds to the magnitude of `x`. -/
def shortest (x : Binary64) : Decimal :=
  if x.place = 0 then ⟨0, 0⟩
  else
    let i := Interval.of x
    let bits : Int := (i.middle.log2 : Int) - i.den.log2
    i.coarsest 24 (bits * 30103 / 100000 + 2)

end Decimal

end Schemata
