import Schemata.Json.Shape

namespace Schemata

/-- The outcome of decoding a value. -/
inductive Verdict (α : Type) where
  | success (data : α)
  | failure (message : String)

namespace Verdict

variable {α : Type}

def isSuccess : Verdict α → Bool
  | success _ => true
  | failure _ => false

def data? : Verdict α → Option α
  | success data => some data
  | failure _ => none

def message? : Verdict α → Option String
  | success _ => none
  | failure message => some message

/-- The outcome as a result or an error. -/
def toExcept : Verdict α → Except String α
  | success data => .ok data
  | failure message => .error message

/-- The outcome of a result or an error. -/
def ofExcept : Except String α → Verdict α
  | .ok data => success data
  | .error message => failure message

def toJson (write : α → Json) : Verdict α → Json
  | success data => .object [("success", .bool true), ("data", write data)]
  | failure message => .object [("success", .bool false), ("message", .string message)]

/-- The entries of a wire form as they are read. -/
structure Raw (α : Type) where
  succeeded : Bool := false
  /-- There when the key is, even if it holds null. -/
  data : Option α := none
  message : Option String := none

/-- The fields of a wire form. -/
def Raw.record (read : ShapeReader α) : Shape.Record (Raw α) where
  name := "RawResult"
  fields := [
    { name := "success", required := true
      put := fun raw value => (Shape.bool value).map fun succeeded => { raw with succeeded } },
    { name := "data", put := fun raw value => (read value).map fun data => { raw with data := some data } },
    { name := "message"
      put := fun raw value => (Shape.optional Shape.text value).map fun message => { raw with message } }]

/-- The outcome that the entries stand for. -/
def ofRaw (raw : Raw α) : Except ShapeError (Verdict α) :=
  match raw.succeeded, raw.data, raw.message with
  | true, some data, none => .ok (success data)
  | false, none, some message => .ok (failure message)
  | true, _, _ => .error (.rule "a successful result carries `data` and no `message`")
  | false, _, _ => .error (.rule "a failed result carries `message` and no `data`")

def ofJson (read : ShapeReader α) : ShapeReader (Verdict α) := fun value => do
  ofRaw (← (Raw.record read).read {} value)

end Verdict

end Schemata
