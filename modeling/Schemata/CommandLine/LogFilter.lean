import Schemata.Text.Blank
import Schemata.Text.Cut

namespace Schemata

namespace LogFilter

def levels : List String := ["trace", "debug", "info", "warn", "error"]

def ofLevel (level : String) : String := "schemagen=" ++ level

/-- The filter that a text asks for. -/
def directive : Option String → String
  | none => ofLevel "info"
  | some text =>
    let lowered := String.ofList (text.toList.map Text.lowerAscii)
    if levels.contains lowered then ofLevel lowered
    else if (Text.trim text.toList).isEmpty then ofLevel "info"
    else text

end LogFilter

end Schemata
