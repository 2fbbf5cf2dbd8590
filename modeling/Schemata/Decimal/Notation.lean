import Schemata.Decimal.Shortest

namespace Schemata

namespace Decimal

/-- The power of ten of the first digit. -/
def leading (d : Decimal) : Int := d.exponent + d.digitChars.length - 1

/-- Digits around a point: no exponent, zeros filled in. With `fraction` a whole number still gets `.0`. -/
def positional (d : Decimal) (fraction : Bool) : List Char :=
  let digits := d.digitChars
  let tail := if fraction then ['.', '0'] else []
  if 0 ≤ d.exponent then
    (if d.digits = 0 then ['0'] else digits ++ List.replicate d.exponent.toNat '0') ++ tail
  else
    let places := (-d.exponent).toNat
    if digits.length ≤ places then '0' :: '.' :: (List.replicate (places - digits.length) '0' ++ digits)
    else digits.take (digits.length - places) ++ '.' :: digits.drop (digits.length - places)

/-- One digit, the others behind a point, and the exponent with its sign. -/
def scientific (d : Decimal) : List Char :=
  let point := match d.digitChars with
    | first :: second :: rest => first :: '.' :: second :: rest
    | digits => digits
  let sign := if d.leading < 0 then '-' else '+'
  point ++ 'e' :: sign :: Nat.toDigits 10 d.leading.natAbs

end Decimal

namespace Binary64

/-- The sign in front of a written magnitude. -/
def signed (x : Binary64) (magnitude : List Char) : String :=
  String.ofList (if x.negative then '-' :: magnitude else magnitude)

/-- Positional while the first digit stands between `10 ^ -5` and `10 ^ 15`, always with a fraction;
scientific outside. -/
def toJsonText (x : Binary64) : String :=
  let d := Decimal.shortest x
  x.signed (if x.place = 0 ∨ (-5 ≤ d.leading ∧ d.leading < 16) then d.positional true else d.scientific)

/-- Always positional, and whole numbers without a fraction. -/
def toPlainText (x : Binary64) : String := x.signed ((Decimal.shortest x).positional false)

end Binary64

end Schemata
