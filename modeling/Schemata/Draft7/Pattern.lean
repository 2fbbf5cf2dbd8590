namespace Schemata

namespace Draft7

/-- A set of characters: those in the ranges, or all others. -/
structure CharSet where
  negated : Bool := false
  ranges : List (Nat × Nat)
deriving DecidableEq

/-- The character is in the set. -/
def CharSet.has (set : CharSet) (c : Char) : Bool :=
  set.negated != set.ranges.any fun (low, high) => low ≤ c.toNat && c.toNat ≤ high

inductive Pattern where
  | empty
  | one (set : CharSet)
  | sequence (first second : Pattern)
  | choice (first second : Pattern)
  /-- The body, so many times; without a limit when there is no `most`. -/
  | repeated (body : Pattern) (least : Nat) (most : Option Nat)
  | textStart
  | textEnd
  /-- One side is a word character and the other is not, or the opposite of that. -/
  | wordEdge (positive : Bool)
  /-- The body matches from here on, or up to here when not `ahead`; or the opposite of that. -/
  | look (ahead positive : Bool) (body : Pattern)
deriving DecidableEq, Inhabited

namespace Pattern

/-- A letter, a digit or an underscore. -/
def isWordChar (c : Char) : Bool := c.isAlphanum || c == '_'

/-- A word character stands right behind a place. -/
def wordAt (text : Array Char) (place : Nat) : Bool := (text[place]?.map isWordChar).getD false

/-- Exactly one side of a place is a word character. -/
def isWordEdge (text : Array Char) (place : Nat) : Bool :=
  wordAt text place != (place ≠ 0 && wordAt text (place - 1))

/-- The places of both lists, each once. -/
def join (a b : List Nat) : List Nat := a ++ b.filter fun place => !a.contains place

/-- The places where a match may end that starts at one of the given places. -/
def ends (text : Array Char) : Pattern → List Nat → List Nat
  | empty, starts => starts
  | one set, starts => starts.filterMap fun place => (text[place]?.filter set.has).map fun _ => place + 1
  | sequence first second, starts => second.ends text (first.ends text starts)
  | choice first second, starts => join (first.ends text starts) (second.ends text starts)
  | repeated body least most, starts =>
    let further (places : List Nat) := join places (body.ends text places)
    let rounds := most.elim (text.size + 1) fun most => min (most - least) (text.size + 1)
    Nat.repeat further rounds (Nat.repeat (body.ends text) least starts)
  | textStart, starts => starts.filter (· = 0)
  | textEnd, starts => starts.filter (· = text.size)
  | wordEdge positive, starts => starts.filter fun place => isWordEdge text place == positive
  | look true positive body, starts => starts.filter fun place => (body.ends text [place]).isEmpty != positive
  | look false positive body, starts => starts.filter fun place =>
    ((List.range (place + 1)).any fun start => (body.ends text [start]).contains place) == positive

/-- The pattern matches somewhere in the text. -/
def isIn (pattern : Pattern) (text : String) : Bool :=
  let chars := text.toList.toArray
  !(pattern.ends chars (List.range (chars.size + 1))).isEmpty

end Pattern

end Draft7

end Schemata
