import SafeMarkdown.Json.Parser
import SafeMarkdown.Pipeline.Config
import SafeMarkdown.Storage.Disk
import SafeMarkdown.Yaml.Data
import SafeMarkdown.Yaml.Load

/-!
# Settings

What a site is built with: where its documents are and where they go, which files count as
documents, and how they are rendered. Lists may be written as one text with commas, mappings as a
JSON text. The faults of all settings are told together, in the order of the settings.

Settings are read from a YAML file in the working directory, if there is one. Variables of the
environment come before what the file says, and what a caller gives comes before both. Empty
variables and null do not count.
-/

namespace SafeMarkdown

structure Settings where
  contentRoot : String := "content"
  extensions : List String := [".md", ".mdx"]
  recursive : Bool := false
  outputFolder : String := "dist"
  dialect : String := "gfm-like"
  strict : Bool := false
  sanitizes : Bool := true
  anchorClass : String := "anchor"
  lists : SchemaArguments := {}
  languages : Option (List String) := none

namespace Settings

/-- The names of the settings, in order. -/
def names : List String := [
  "content_root", "extensions", "recursive", "output_dir", "parser_config", "strict_frontmatter",
  "sanitize", "anchor_class", "allowed_tags", "allowed_attributes", "global_attributes",
  "protocols", "enabled_languages"]

/-- A setting that is no collection as a value; collections become empty ones. -/
def single : Yaml.Data → Value
  | .null => .null
  | .bool b => .bool b
  | .int n => .int n
  | .float x => .float x
  | .str s => .str s
  | .bytes bs => .bytes bs
  | .date d => .date d
  | .moment m => .moment m
  | .seq _ | .set _ => .arr []
  | .map _ => .obj []

def itemPlace (place : String) (i : Nat) : String :=
  place ++ "." ++ toString i

/-- The texts of a list's items, the first of which has number `i`. -/
def readItems (place : String) : Nat → List Yaml.Data → Checked (List String)
  | _, [] => .ok []
  | i, d :: rest =>
    Checked.cons (Checked.string (itemPlace place i) (single d)) (readItems place (i + 1) rest)

def readList (place : String) : Yaml.Data → Checked (List String)
  | .seq items | .set items => readItems place 0 items
  | _ => .error [(place, "list_type")]

def readCommaList (place : String) : Yaml.Data → Checked (List String)
  | .str s => .ok (Text.commaList s)
  | d => readList place d

def keyPlace (place : String) (key : Yaml.Data) : String :=
  place ++ "." ++
    match key with
    | .str s => s
    | .bool b => if b then "1" else "0"
    | k => (single k).literal

/-- An entry of a mapping from texts to lists of texts. -/
def readEntry (place : String) (key list : Yaml.Data) : Checked (String × List String) :=
  let inner := keyPlace place key
  match Checked.string (inner ++ ".[key]") (single key), readList inner list with
  | .ok k, .ok ns => .ok (k, ns)
  | k, ns => .error (k.faults ++ ns.faults)

def readEntries (place : String) : List (Yaml.Data × Yaml.Data) → Checked (List (String × List String))
  | [] => .ok []
  | (key, list) :: rest => Checked.cons (readEntry place key list) (readEntries place rest)

def readMapping (place : String) : Yaml.Data → Checked (List (String × List String))
  | .map entries => readEntries place entries
  | _ => .error [(place, "dict_type")]

def nullOr {α : Type} (read : Yaml.Data → Checked α) : Yaml.Data → Checked (Option α)
  | .null => .ok none
  | d => (read d).map some

def readJsonMapping (place : String) : Yaml.Data → Checked (Option (List (String × List String)))
  | .str s =>
    match Json.parse? s.toList with
    | some v => nullOr (readMapping place) (Yaml.Data.ofValue v)
    | none => .error [(place, "value_error")]
  | d => nullOr (readMapping place) d

def dotted (suffix : String) : String :=
  if Text.startsWith suffix "." then suffix else "." ++ suffix

/-- The setting of a name among entries with text keys. -/
def entry? (name : String) : List (Yaml.Data × Yaml.Data) → Option Yaml.Data
  | [] => none
  | (.str s, d) :: rest => if s == name then some d else entry? name rest
  | _ :: rest => entry? name rest

/-- Reads a setting; an absent one has its default. -/
def read {α : Type} (entries : List (Yaml.Data × Yaml.Data)) (name : String) (absent : α)
    (reader : String → Yaml.Data → Checked α) : Checked α :=
  match entry? name entries with
  | none => .ok absent
  | some d => reader name d

def readText (place : String) (d : Yaml.Data) : Checked String :=
  Checked.string place (single d)

def readSwitch (place : String) (d : Yaml.Data) : Checked Bool :=
  Checked.boolean place (single d)

/-- The settings that entries with text keys describe; entries of other names are passed over. -/
def ofEntries (entries : List (Yaml.Data × Yaml.Data)) : Checked Settings :=
  let standard : Settings := {}
  let contentRoot := read entries "content_root" standard.contentRoot readText
  let extensions := read entries "extensions" standard.extensions fun place d ↦
    (readCommaList place d).map (·.map dotted)
  let recursive := read entries "recursive" standard.recursive readSwitch
  let outputFolder := read entries "output_dir" standard.outputFolder readText
  let dialect := read entries "parser_config" standard.dialect readText
  let strict := read entries "strict_frontmatter" standard.strict readSwitch
  let sanitizes := read entries "sanitize" standard.sanitizes readSwitch
  let anchorClass := read entries "anchor_class" standard.anchorClass readText
  let tags := read entries "allowed_tags" none fun place ↦ nullOr (readCommaList place)
  let attributes := read entries "allowed_attributes" none readJsonMapping
  let globals := read entries "global_attributes" none fun place ↦ nullOr (readCommaList place)
  let protocols := read entries "protocols" none readJsonMapping
  let languages := read entries "enabled_languages" none fun place ↦ nullOr (readCommaList place)
  let faults := contentRoot.faults ++ extensions.faults ++ recursive.faults ++
    outputFolder.faults ++ dialect.faults ++ strict.faults ++ sanitizes.faults ++
    anchorClass.faults ++ tags.faults ++ attributes.faults ++ globals.faults ++
    protocols.faults ++ languages.faults
  match faults with
  | [] => do
    return {
      contentRoot := ← contentRoot
      extensions := ← extensions
      recursive := ← recursive
      outputFolder := ← outputFolder
      dialect := ← dialect
      strict := ← strict
      sanitizes := ← sanitizes
      anchorClass := ← anchorClass
      lists := ⟨← tags, ← attributes, ← globals, ← protocols⟩
      languages := ← languages }
  | _ => .error faults

def hasTextKeys (entries : List (Yaml.Data × Yaml.Data)) : Bool :=
  entries.all fun e ↦
    match e.1 with
    | .str _ => true
    | _ => false

/-- The settings that data describes, which has to be a mapping with text keys. -/
def ofData : Yaml.Data → Except Failure Settings
  | .map entries =>
    if hasTextKeys entries then (ofEntries entries).mapError Failure.invalid
    else .error (.wrongShape "a setting is named by no text")
  | _ => .error (.wrongShape "settings are no mapping")

def schema (s : Settings) : Schema :=
  s.lists.schema

/-- The languages that are highlighted, with blank names left out. -/
def highlighted (s : Settings) : Option (List String) :=
  s.languages.map Schema.normalNames

/-- The configuration of the pipeline. An empty class for heading links stands for none. -/
def pipelineConfig (s : Settings) : Logged PipelineConfig := do
  PipelineConfig.announce s.schema
  PipelineConfig.announce s.schema
  return {
    dialect := s.dialect
    schema := s.schema
    sanitizes := s.sanitizes
    languages := s.highlighted
    anchorClass := if s.anchorClass.isEmpty then none else some s.anchorClass }

def mappingValue (m : List (String × List String)) : Value :=
  .obj (m.map fun e ↦ (e.1, .arr (e.2.map .str)))

/-- All settings with their names, in order; null for those that are not set. -/
def toFields (s : Settings) : Fields :=
  let list (names : List String) : Value := .arr (names.map .str)
  [("content_root", .str s.contentRoot), ("extensions", list s.extensions),
    ("recursive", .bool s.recursive), ("output_dir", .str s.outputFolder),
    ("parser_config", .str s.dialect), ("strict_frontmatter", .bool s.strict),
    ("sanitize", .bool s.sanitizes), ("anchor_class", .str s.anchorClass),
    ("allowed_tags", (s.lists.tags.map list).getD .null),
    ("allowed_attributes", (s.lists.attributes.map mappingValue).getD .null),
    ("global_attributes", (s.lists.globals.map list).getD .null),
    ("protocols", (s.lists.protocols.map mappingValue).getD .null),
    ("enabled_languages", (s.languages.map list).getD .null)]

end Settings

end SafeMarkdown

namespace SafeMarkdown.Settings

def fileName : String := "config.yaml"

def variableOf (name : String) (environment : List (String × String)) : Option String :=
  match environment.lookup ("MDRENDER_" ++ String.ofList (Text.upper name.toList)) with
  | none => none
  | some v => if v.isEmpty then none else some v

/-- What the file says; a file that says nothing is an empty mapping. -/
def fileData (d : Disk) : Except Failure Yaml.Data :=
  let p := Path.ofText fileName
  if !d.holds p then .ok (.map [])
  else do
    match Yaml.load (← d.readText p).toList with
    | .error .malformed => throw (.unusable ("Invalid " ++ fileName))
    | .error (.scalar cause) => throw cause.failure
    | .ok data => return if data.isTruthy then data else .map []

def setVariables (environment : List (String × String)) : List (String × String) :=
  names.filterMap fun name ↦ (variableOf name environment).map fun v ↦ (name, v)

def putAll (entries : List (Yaml.Data × Yaml.Data)) (given : List (String × Yaml.Data)) :
    List (Yaml.Data × Yaml.Data) :=
  given.foldl (fun acc g ↦ Yaml.Data.put (.str g.1) g.2 acc) entries

/-- Data with the variables that are set. Only a mapping has room for them. -/
def withVariables (set : List (String × String)) : Yaml.Data → Except Failure Yaml.Data
  | .map entries => .ok (.map (putAll entries (set.map fun v ↦ (v.1, .str v.2))))
  | d => if set.isEmpty then .ok d else .error (.wrongShape "settings are no mapping")

/-- Data with what a caller gives. Data that takes no entries at all cannot be given any. -/
def withGiven (given : List (String × Value)) : Yaml.Data → Except Failure Yaml.Data
  | .map entries =>
    let set := given.filter fun g ↦
      match g.2 with
      | .null => false
      | _ => true
    .ok (.map (putAll entries (set.map fun g ↦ (g.1, Yaml.Data.ofValue g.2))))
  | .set items => .ok (.set items)
  | d => if given.isEmpty then .ok d else .error .unsupported

def load (d : Disk) (environment : List (String × String)) (given : List (String × Value)) :
    Except Failure Settings := do
  let data ← fileData d
  let data ← withVariables (setVariables environment) data
  ofData (← withGiven given data)

end SafeMarkdown.Settings
