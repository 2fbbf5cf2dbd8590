import Schemata.Settings
import Schemata.Toml.Reader
import Schemata.TypeScript.Layout

namespace Schemata

structure Configuration where
  formatter : Formatter := .indent
  normalize : NormalizeSettings := {}
  generator : GeneratorSettings := {}
  format : FormatStyle := {}

namespace Configuration

/-- The formatter that an item names: by its name, or by a table that holds nothing but an empty table or array of
that name. -/
def formatter? : Toml.Item → Option Formatter
  | .text name => Formatter.ofName? name
  | .inlined [(name, content)] => if isEmpty content then Formatter.ofName? name else none
  | .table _ [(name, content)] => if isEmpty content then Formatter.ofName? name else none
  | _ => none
where
  /-- An empty table or array. -/
  isEmpty : Toml.Item → Bool
    | .list [] => true
    | .inlined [] => true
    | .table _ [] => true
    | _ => false

/-- Puts one entry into the configuration. A table may be written as an array of its values, and what such an array
holds behind them is left out. -/
def put? (configuration : Configuration) (entry : String × Toml.Item) : Option Configuration :=
  let data := entry.2.toJson
  match entry.1 with
  | "formatter" => (formatter? entry.2).map fun formatter => { configuration with formatter }
  | "normalize" =>
    (NormalizeSettings.record.readLeading {} data).toOption.map fun normalize => { configuration with normalize }
  | "generator" =>
    (GeneratorSettings.record.readLeading {} data).toOption.map fun generator => { configuration with generator }
  | "format" => (FormatStyle.record.readLeading {} data).toOption.map fun format => { configuration with format }
  | _ => none

/-- The configuration that a TOML text writes; what it does not name has its default. -/
def ofToml? (text : String) : Option Configuration := do (← Toml.ofText? text).foldlM put? {}

end Configuration

/-- The flags that switch something off, or the passes for version 3.1 on. -/
structure Overrides where
  noConst : Bool := false
  noTuples : Bool := false
  noConditionals : Bool := false
  noWebhooks : Bool := false
  noNullable : Bool := false
  openApi31 : Bool := false
  noFallback : Bool := false
  noDecoders : Bool := false
deriving DecidableEq

namespace Overrides

def flagNames : List String :=
  ["no-const", "no-tuples", "no-conditionals", "no-webhooks", "no-nullable", "openapi31", "no-fallback", "no-decoders"]

/-- The overrides of the flags that are given. -/
def ofFlags (given : String → Bool) : Overrides where
  noConst := given "no-const"
  noTuples := given "no-tuples"
  noConditionals := given "no-conditionals"
  noWebhooks := given "no-webhooks"
  noNullable := given "no-nullable"
  openApi31 := given "openapi31"
  noFallback := given "no-fallback"
  noDecoders := given "no-decoders"

def apply (flags : Overrides) (configuration : Configuration) : Configuration :=
  let s := configuration.normalize
  { configuration with
    normalize := {
      constKeyword := s.constKeyword && !flags.noConst
      tuples := s.tuples && !flags.noTuples
      conditionals := s.conditionals && !flags.noConditionals
      webhooks := s.webhooks && !flags.noWebhooks
      nullable := s.nullable && !flags.noNullable
      treatAsOpenApi31 := s.treatAsOpenApi31 || flags.openApi31
      fallbackToOpenApi30 := s.fallbackToOpenApi30 && !flags.noFallback }
    generator := { configuration.generator with
      decoders := configuration.generator.decoders && !flags.noDecoders } }

end Overrides

end Schemata
