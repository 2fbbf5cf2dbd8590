import Schemata.Webhook.Definition

namespace Schemata

namespace Webhook

/-- A structural problem. -/
inductive Flaw where
  | notAMap
  | entryNotAnObject (webhook : String)
  | noMethods (webhook : String)
  | methodNotAnObject (webhook method : String)
  | emptyOperation (webhook method : String)
deriving DecidableEq

def Flaw.message : Flaw → String
  | .notAMap => "webhooks must be an object"
  | .entryNotAnObject webhook => s!"webhook `{webhook}` must be an object"
  | .noMethods webhook => s!"webhook `{webhook}` defines no HTTP methods"
  | .methodNotAnObject webhook method => s!"webhook `{webhook}` method `{method}` must be an object"
  | .emptyOperation webhook method =>
    s!"webhook `{webhook}` method `{method}` has neither requestBody nor responses"

/-- The problem of an operation, if it has one. -/
def operationFlaw (webhook method : String) : Json → Option Flaw
  | .object fields =>
    if Table.has fields "requestBody" || Table.has fields "responses" then none
    else some (.emptyOperation webhook method)
  | _ => some (.methodNotAnObject webhook method)

def entryFlaws (webhook : String) : Json → List Flaw
  | .object fields =>
    match fields.filter fun (key, _) => methods.contains key with
    | [] => [.noMethods webhook]
    | operations => operations.filterMap fun (method, operation) => operationFlaw webhook method operation
  | _ => [.entryNotAnObject webhook]

/-- The problems of a map of webhooks, in source order; null stands for no webhooks. -/
def flaws : Json → List Flaw
  | .null => []
  | .object entries => entries.flatMap fun (webhook, entry) => entryFlaws webhook entry
  | _ => [.notAMap]

end Webhook

end Schemata
