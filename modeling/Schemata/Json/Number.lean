import Schemata.Json.Basic

namespace Schemata

namespace Number

/-- What can be wrong with the text of a number. -/
inductive Flaw where
  /-- The text ends inside the number. -/
  | unfinished
  /-- The next character does not continue a number. -/
  | unexpected
  /-- The value is past the finite range. -/
  | outOfRange
deriving DecidableEq

def digitValue (c : Char) : Nat := c.toNat - '0'.toNat

/-- Appends digits to the significand while it stays below `2 ^ 64`: the significand, how many digits went in,
and how many were left over. -/
def absorb (significand : Nat) : List Char → Nat × Nat × Nat
  | [] => (significand, 0, 0)
  | c :: rest =>
    let next := significand * 10 + digitValue c
    if next < 0x10000000000000000 then
      let (result, taken, left) := absorb next rest
      (result, taken + 1, left)
    else (significand, 0, rest.length + 1)

/-- The power of ten nearest to `10 ^ n`, for `n` up to 308. -/
def powerOfTen (n : Nat) : Binary64 := (Binary64.ofDecimal? false 1 n).getD (Binary64.zero false)

/-- Scales by `10 ^ exponent`: one rounded operation, after as many divisions by `10 ^ 308` as it takes to get
the exponent into reach. -/
def scale (x : Binary64) (exponent : Int) : Option Binary64 :=
  if exponent < -308 then
    if x.place = 0 then some x
    else (x.div? (powerOfTen 308)).bind fun y => scale y (exponent + 308)
  else if exponent < 0 then x.div? (powerOfTen (-exponent).toNat)
  else if exponent ≤ 308 then x.mul? (powerOfTen exponent.toNat)
  else if x.place = 0 then some x
  else none
termination_by (-exponent).toNat

/-- The floating-point number `± significand * 10 ^ exponent`. -/
def ofParts? (negative : Bool) (significand : Nat) (exponent : Int) : Option Number := do
  let magnitude ← Binary64.ofRatio? false significand 1
  let scaled ← scale magnitude exponent
  return .float { scaled with negative }

/-- The outcome of reading: the number and the text after it, or the flaw and the text where it was seen. -/
abbrev Outcome := Except (Flaw × List Char) (Number × List Char)

/-- The number of these parts, read up to `rest`. -/
def finish (negative : Bool) (significand : Nat) (exponent : Int) (rest : List Char) : Outcome :=
  match ofParts? negative significand exponent with
  | some n => .ok (n, rest)
  | none => .error (.outOfRange, rest)

/-- The digits of an exponent up to `2 ^ 31 - 1`; past that, the text after the digit too many. -/
def exponentDigits (value : Nat) : List Char → Except (List Char) (Nat × List Char)
  | [] => .ok (value, [])
  | c :: rest =>
    if c.isDigit then
      let next := value * 10 + digitValue c
      if next < 0x80000000 then exponentDigits next rest else .error rest
    else .ok (value, c :: rest)

/-- Reads an exponent, after its letter. -/
def readExponent (negative : Bool) (significand : Nat) (exponent : Int) (text : List Char) : Outcome :=
  let (down, digits) := match text with
    | '+' :: rest => (false, rest)
    | '-' :: rest => (true, rest)
    | _ => (false, text)
  match digits with
  | [] => .error (.unfinished, [])
  | c :: _ =>
    if !c.isDigit then .error (.unexpected, digits)
    else match exponentDigits 0 digits with
      | .ok (value, rest) => finish negative significand (if down then exponent - value else exponent + value) rest
      | .error rest =>
        if significand ≠ 0 ∧ !down then .error (.outOfRange, rest)
        else .ok (.float (Binary64.zero negative), rest.dropWhile Char.isDigit)

/-- Reads an exponent if one follows. -/
def readTail (negative : Bool) (significand : Nat) (exponent : Int) (text : List Char) : Outcome :=
  match text with
  | 'e' :: rest => readExponent negative significand exponent rest
  | 'E' :: rest => readExponent negative significand exponent rest
  | _ => finish negative significand exponent text

/-- Reads a fraction, after its point. -/
def readFraction (negative : Bool) (significand : Nat) (exponent : Int) (text : List Char) : Outcome :=
  let digits := text.takeWhile Char.isDigit
  let rest := text.dropWhile Char.isDigit
  if digits.isEmpty then .error (if rest.isEmpty then .unfinished else .unexpected, rest)
  else
    let (result, taken, _) := absorb significand digits
    readTail negative result (exponent - taken) rest

/-- A number without point and exponent whose digits all fit. -/
def ofDigits (negative : Bool) (significand : Nat) : Option Number :=
  if !negative then ofInt? significand
  else if h : significand ≠ 0 ∧ IntegerRange (-significand) then some (.int (-significand) h.2)
  else ofParts? true significand 0

/-- Reads a number, after its sign. -/
def read (negative : Bool) (text : List Char) : Outcome :=
  match text with
  | [] => .error (.unfinished, [])
  | c :: after =>
    if !c.isDigit then .error (.unexpected, text)
    else if c = '0' ∧ (after.head?.map Char.isDigit).getD false then .error (.unexpected, after)
    else
      let (significand, _, left) := absorb 0 (text.takeWhile Char.isDigit)
      match text.dropWhile Char.isDigit with
      | '.' :: rest => readFraction negative significand left rest
      | rest =>
        match rest with
        | 'e' :: _ => readTail negative significand left rest
        | 'E' :: _ => readTail negative significand left rest
        | _ =>
          if left = 0 then
            match ofDigits negative significand with
            | some n => .ok (n, rest)
            | none => .error (.outOfRange, rest)
          else finish negative significand left rest

end Number

end Schemata
