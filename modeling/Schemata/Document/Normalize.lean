import Schemata.Document.Basic
import Schemata.Pass.Conditional
import Schemata.Pass.Const
import Schemata.Pass.Hoist
import Schemata.Pass.Nullable
import Schemata.Pass.Tuple
import Schemata.Schema.Issue
import Schemata.Schema.Printer
import Schemata.Settings
import Schemata.Webhook.Definition

namespace Schemata

/-- A step of normalization. -/
inductive Pass where
  | references | const | tuples | conditionals | nullable | webhooks
deriving DecidableEq

namespace Pass

/-- The passes in the order of the report. -/
def order : List Pass := [.references, .const, .tuples, .conditionals, .nullable, .webhooks]

/-- The name in reports. -/
def name : Pass → String
  | .references => "references"
  | .const => "const"
  | .tuples => "tuples"
  | .conditionals => "conditionals"
  | .nullable => "nullable"
  | .webhooks => "webhooks"

/-- The pass is about keywords of version 3.1. -/
def needs31 : Pass → Bool
  | .const => true
  | .tuples => true
  | .conditionals => true
  | .webhooks => true
  | _ => false

/-- The settings ask for the pass. -/
def enabled (settings : NormalizeSettings) : Pass → Bool
  | .references => true
  | .const => settings.constKeyword
  | .tuples => settings.tuples
  | .conditionals => settings.conditionals
  | .nullable => settings.nullable
  | .webhooks => settings.webhooks

/-- What the pass does to one schema; webhooks are not made from schemas. -/
def transform? : Pass → Option (Schema → Noted Schema)
  | .references => some Schema.normalizeReferences
  | .const => some Schema.normalizeConst
  | .tuples => some Schema.normalizeTuples
  | .conditionals => some Schema.normalizeConditionals
  | .nullable => some Schema.normalizeNullable
  | .webhooks => none

end Pass

/-- What became of a pass. -/
inductive Outcome where
  | applied (changed : Bool)
  | disabled
  | not31
deriving DecidableEq

namespace Outcome

def text : Outcome → String
  | .applied true => "applied"
  | .applied false => "no match"
  | .disabled => "skipped (disabled)"
  | .not31 => "skipped (not OpenAPI 3.1)"

/-- The pass ran and changed something. -/
def changed : Outcome → Bool
  | .applied changed => changed
  | _ => false

end Outcome

/-- The passes for version 3.1 are tried on documents of this version. -/
def NormalizeSettings.attempts31 (settings : NormalizeSettings) (version : SpecVersion) : Bool :=
  settings.treatAsOpenApi31 || version.is31 || !settings.fallbackToOpenApi30

/-- Why a pass does not run, if it does not. -/
def NormalizeSettings.skips (settings : NormalizeSettings) (version : SpecVersion) (pass : Pass) : Option Outcome :=
  if !pass.enabled settings then some .disabled
  else if pass.needs31 && !settings.attempts31 version then some .not31
  else none

/-- The definitions of a document in normal form, with the report. -/
structure SchemaSet where
  version : SpecVersion
  definitions : Table Schema
  passes : List (Pass × Outcome)
  constValues : List Json
  issues : List Issue

namespace SchemaSet

/-- Runs a pass over all definitions, in order. -/
def transformAll (transform : Schema → Noted Schema) : Table Schema → Noted (Table Schema)
  | [] => pure []
  | (name, schema) :: rest => do
    let schema ← transform schema
    return (name, schema) :: (← transformAll transform rest)

/-- What the passes have made so far. -/
structure Progress where
  definitions : Table Schema
  passes : List (Pass × Outcome) := []
  constValues : List Json := []

/-- Runs one pass, unless it is skipped. The reference pass counts what was hoisted as its own change, and the
webhooks have joined before. -/
def runPass (settings : NormalizeSettings) (version : SpecVersion) (hoisted : Bool) (webhooks : Outcome)
    (progress : Progress) (pass : Pass) : Progress :=
  match settings.skips version pass, pass.transform? with
  | _, none => { progress with passes := progress.passes ++ [(pass, webhooks)] }
  | some outcome, some _ => { progress with passes := progress.passes ++ [(pass, outcome)] }
  | none, some transform =>
    let result := transformAll transform progress.definitions
    let changed := (pass == .references && hoisted) || result.changed
    ⟨result.value, progress.passes ++ [(pass, .applied changed)], progress.constValues ++ result.found⟩

/-- The definitions of the webhooks, and what became of their pass. -/
def webhookDefinitions (document : Document) (settings : NormalizeSettings) : Table Schema × Outcome :=
  match settings.skips document.version .webhooks with
  | some outcome => ([], outcome)
  | none =>
    let names := NameAllocator.reserving (Table.keys document.definitions)
    let (added, _) := Webhook.definitions document.webhooks document.raw names
    (added, .applied !added.isEmpty)

/-- The issues of all definitions, each with the path from the root of the set. -/
def issuesOf (definitions : Table Schema) : List Issue :=
  definitions.flatMap fun (name, schema) =>
    schema.issues.map fun issue => { issue with pointer := "definitions" :: name :: issue.pointer }

/-- The normal form of a document. -/
def ofDocument (document : Document) (settings : NormalizeSettings) : SchemaSet :=
  let (added, webhooks) := webhookDefinitions document settings
  let (definitions, hoisted) := hoistDefinitions (document.definitions ++ added)
  let progress := Pass.order.foldl (runPass settings document.version hoisted webhooks) { definitions }
  ⟨document.version, progress.definitions, progress.passes, progress.constValues, issuesOf progress.definitions⟩

/-- A set of definitions that are taken as they are. -/
def ofDefinitions (definitions : Table Schema) : SchemaSet := ⟨.jsonSchema, definitions, [], [], []⟩

/-- All definitions as one object. -/
def toJson (set : SchemaSet) : Json := .object (Schema.tableToFields set.definitions)

/-- A definition as a schema of its own: all definitions stand in a block under its root, where they win over
entries of the block that the root may have. A root that is no object stays as it is. -/
def standalone? (set : SchemaSet) (name : String) : Option Json :=
  (set.definitions.lookup name).map fun schema =>
    match schema.toJson with
    | .object fields =>
      let own := ((fields.lookup "definitions").bind Json.object?).getD []
      let merged := Table.insertAll own (Schema.tableToFields set.definitions)
      .object (Table.swapErase fields "definitions" ++ [("definitions", .object merged)])
    | other => other

end SchemaSet

end Schemata
