import SafeMarkdown.Checked
import SafeMarkdown.Log
import SafeMarkdown.Schema

/-!
# Pipeline configuration

What every document of a pipeline shares: the name of the Markdown dialect, the sanitization schema
and whether it is used at all, the languages that are highlighted, and the class of heading links. A
schema that allows unsafe tags is announced when it is built and when it is placed in a
configuration.
-/

namespace SafeMarkdown

structure PipelineConfig where
  dialect : String := "gfm-like"
  schema : Schema := Schema.standard
  sanitizes : Bool := true
  /-- The languages that are highlighted, in lower case; all of them when there is no list. -/
  languages : Option (List String) := none
  anchorClass : Option String := some "anchor"

namespace PipelineConfig

/-- Announces a schema that allows unsafe tags. -/
def announce (s : Schema) : Logged Unit :=
  match s.warning? with
  | none => pure ()
  | some message => Logged.warn .schema message

/-- The languages that a list names; blank names do not count. -/
def languagesIn : List Value → Except Failure (List String)
  | [] => .ok []
  | .str s :: rest =>
    (languagesIn rest).map fun names ↦
      if (Text.trim s.toList).isEmpty then names else Schema.normalName s :: names
  | _ :: _ => .error .unsupported

/-- The languages to highlight; null stands for all of them. -/
def readLanguages : Value → Except Failure (Option (List String))
  | .null => .ok none
  | v => do
    let items ← SchemaArguments.itemsOf v
    return some (← languagesIn items)

/-- The configuration that fields describe around a schema; fields of other names are passed
over. -/
def ofFields (schema : Schema) (fields : Fields) : Except Failure PipelineConfig := do
  let dialect := Checked.field fields "parser_config" (.ok "gfm-like")
    (Checked.string "parser_config")
  let sanitizes := Checked.field fields "sanitize" (.ok true) (Checked.boolean "sanitize")
  let languages ← Checked.field fields "enabled_languages" (.ok none) readLanguages
  let anchorClass := Checked.field fields "anchor_class" (.ok (some "anchor"))
    (Checked.nullOr (Checked.string "anchor_class"))
  match dialect, sanitizes, anchorClass with
  | .ok dialect, .ok sanitizes, .ok anchorClass =>
    .ok { dialect, schema, sanitizes, languages, anchorClass }
  | _, _, _ => .error (.invalid (dialect.faults ++ sanitizes.faults ++ anchorClass.faults))

/-- The schema of a value of `sanitization`; absent and null stand for the standard one. -/
def readSchema : Option Value → Except Failure Schema
  | none => .ok Schema.standard
  | some v => (SchemaArguments.ofValue v).map SchemaArguments.schema

/-- The configuration that an object describes; null stands for the standard one. -/
def ofValue : Value → Logged PipelineConfig
  | .obj fields => do
    let schema ← Logged.ofExcept (readSchema (Fields.get? fields "sanitization"))
    announce schema
    announce schema
    Logged.ofExcept (ofFields schema fields)
  | .null => pure {}
  | _ => throw (.wrongShape "a configuration is no object")

end PipelineConfig

end SafeMarkdown
