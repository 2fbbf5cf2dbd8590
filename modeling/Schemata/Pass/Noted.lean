import Schemata.Schema.Walk

namespace Schemata

/-- A value with what was noted on the way to it. -/
structure Noted (α : Type) where
  value : α
  changed : Bool := false
  found : List Json := []

namespace Noted

instance : Monad Noted where
  pure value := { value }
  bind x f :=
    let y := f x.value
    { value := y.value, changed := x.changed || y.changed, found := x.found ++ y.found }

/-- The node that replaces `n`, when there is one. -/
def ofOption (n : Node) : Option Node → Noted Node
  | some replacement => { value := replacement, changed := true }
  | none => { value := n }

end Noted

end Schemata
