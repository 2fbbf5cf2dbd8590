import Schemata.Json.Basic

namespace Schemata

namespace Draft7

mutual
/-- The same data: numbers by their value, and objects entry by entry in order. -/
def agrees : Json → Json → Bool
  | .null, .null => true
  | .bool a, .bool b => a == b
  | .number a, .number b => a.equal b
  | .string a, .string b => a == b
  | .array a, .array b => itemsAgree a b
  | .object a, .object b => fieldsAgree a b
  | _, _ => false

def itemsAgree : List Json → List Json → Bool
  | [], [] => true
  | a :: as, b :: bs => agrees a b && itemsAgree as bs
  | _, _ => false

def fieldsAgree : List (String × Json) → List (String × Json) → Bool
  | [], [] => true
  | (name, a) :: as, (other, b) :: bs => name == other && agrees a b && fieldsAgree as bs
  | _, _ => false
end

/-- No two of the values are the same data. -/
def allDiffer : List Json → Bool
  | [] => true
  | value :: rest => rest.all (fun other => !agrees value other) && allDiffer rest

/-- The nearest floating-point number. -/
def nearest : Number → Binary64
  | .int value _ => (Binary64.ofInt? value).getD default
  | .float value => value

/-- A multiple of a positive number. By a number without a fraction the binary value is divided, by any other
the shortest decimals are. -/
def isMultipleOf (value factor : Number) : Bool :=
  let x := nearest value
  let y := nearest factor
  match y.toInt? with
  | some n => x.toInt?.any fun m => m % n == 0
  | none =>
    let a := Decimal.shortest x
    let b := Decimal.shortest y
    let low := min a.exponent b.exponent
    a.digits * Nat.pow 10 (a.exponent - low).toNat % (b.digits * Nat.pow 10 (b.exponent - low).toNat) == 0

end Draft7

end Schemata
