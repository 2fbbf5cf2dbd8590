namespace Schemata

/-- The number of places, past the largest finite value. -/
def Binary64.limit : Nat := 2047 * Nat.pow 2 52

/-- A finite 64-bit floating-point number: its sign and the place of its magnitude in increasing order. -/
structure Binary64 where
  negative : Bool
  place : Nat
  finite : place < Binary64.limit
deriving DecidableEq

namespace Binary64

def zero (negative : Bool) : Binary64 := ⟨negative, 0, by decide⟩

instance : Inhabited Binary64 := ⟨zero false⟩

/-- The whole significand: the magnitude is `significand * 2 ^ exponent`. -/
def significand (x : Binary64) : Nat :=
  if x.place < Nat.pow 2 52 then x.place else Nat.pow 2 52 + x.place % Nat.pow 2 52

/-- The exponent that goes with `significand`. -/
def exponent (x : Binary64) : Int := (max (x.place / Nat.pow 2 52) 1 : Nat) - 1075

/-- The magnitude as a quotient of natural numbers. -/
def ratio (x : Binary64) : Nat × Nat :=
  if 0 ≤ x.exponent then (x.significand * Nat.pow 2 x.exponent.toNat, 1)
  else (x.significand, Nat.pow 2 (-x.exponent).toNat)

/-- The quotient rounded to the nearest natural number, a tie to the even one. -/
def roundQuotient (num den : Nat) : Nat :=
  let quotient := num / den
  let twice := 2 * (num % den)
  if twice < den then quotient
  else if twice = den then quotient + quotient % 2
  else quotient + 1

/-- The place nearest to `num / den`; from `limit` on it stands for infinity. -/
def nearestPlace (num den : Nat) : Nat :=
  if num = 0 ∨ den = 0 then 0
  else
    let scaled (e : Int) : Nat × Nat :=
      if 0 ≤ e then (num, den * Nat.pow 2 e.toNat) else (num * Nat.pow 2 (-e).toNat, den)
    let low := max ((num.log2 : Int) - den.log2 - 53) (-1074)
    let above := (scaled low).1 / (scaled low).2 ≥ Nat.pow 2 53
    let e := if above then low + 1 else low
    (e + 1074).toNat * Nat.pow 2 52 + roundQuotient (scaled e).1 (scaled e).2

/-- The value nearest to `± num / den`; nothing when that is out of the finite range. -/
def ofRatio? (negative : Bool) (num den : Nat) : Option Binary64 :=
  let place := nearestPlace num den
  if h : place < limit then some ⟨negative, place, h⟩ else none

/-- The value nearest to `± digits * 10 ^ exponent`; nothing when that is out of the finite range. -/
def ofDecimal? (negative : Bool) (digits : Nat) (exponent : Int) : Option Binary64 :=
  if digits = 0 then some (zero negative)
  else if 400 < exponent then none
  else if exponent < -400 - (digits.log2 : Int) then some (zero negative)
  else if 0 ≤ exponent then ofRatio? negative (digits * Nat.pow 10 exponent.toNat) 1
  else ofRatio? negative digits (Nat.pow 10 (-exponent).toNat)

/-- The value nearest to an integer; nothing when that is out of the finite range. -/
def ofInt? (n : Int) : Option Binary64 := ofRatio? (decide (n < 0)) n.natAbs 1

/-- The product, rounded once. -/
def mul? (x y : Binary64) : Option Binary64 :=
  ofRatio? (x.negative != y.negative) (x.ratio.1 * y.ratio.1) (x.ratio.2 * y.ratio.2)

/-- The quotient by a value other than zero, rounded once. -/
def div? (x y : Binary64) : Option Binary64 :=
  ofRatio? (x.negative != y.negative) (x.ratio.1 * y.ratio.2) (x.ratio.2 * y.ratio.1)

/-- Equal as numbers: the two zeros are one number. -/
def sameNumber (x y : Binary64) : Bool := x.place == y.place && (x.negative == y.negative || x.place == 0)

/-- The integer that this is, when it has no fraction. -/
def toInt? (x : Binary64) : Option Int :=
  let (num, den) := x.ratio
  if num % den = 0 then some (if x.negative then -(num / den : Nat) else (num / den : Nat)) else none

end Binary64

end Schemata
