import Schemata.Document.Normalize
import Schemata.Webhook.Check

namespace Schemata

namespace Report

/-- A heading with a count, and the names under it. -/
def listing (heading : String) (names : List String) : List String :=
  s!"{heading} ({names.length}):" :: names.map ("  " ++ ·)

def lines (document : Document) (set : SchemaSet) : List String :=
  let webhooks := Table.keys (Webhook.ofDocument document.raw)
  [s!"version: {set.version.label}"]
    ++ listing "definitions" (Table.keys set.definitions)
    ++ (if webhooks.isEmpty then [] else listing "webhooks" webhooks)
    ++ (Webhook.flaws document.webhooks).map (fun flaw => s!"  invalid webhook: {flaw.message}")
    ++ "passes:" :: set.passes.map (fun (pass, outcome) => s!"  {pass.name}: {outcome.text}")
    ++ (if set.constValues.isEmpty then []
        else ["const values: " ++ String.intercalate ", " (set.constValues.map Json.compact)])
    ++ (if set.issues.isEmpty then [] else listing "issues" (set.issues.map Issue.message))

def text (document : Document) (set : SchemaSet) : String :=
  String.join ((lines document set).map (· ++ "\n"))

/-- Nothing is wrong with the definitions and the webhooks. -/
def clean (document : Document) (set : SchemaSet) : Bool :=
  set.issues.isEmpty && (Webhook.flaws document.webhooks).isEmpty

end Report

end Schemata
