import SafeMarkdown.Command.Request
import SafeMarkdown.Command.Session
import SafeMarkdown.Html.Writer
import SafeMarkdown.Log
import SafeMarkdown.Settings
import SafeMarkdown.Site.Load
import SafeMarkdown.Yaml.Writer

/-!
# Commands

A command line renders one document, lists or builds a site, or shows the schema in force. It reads
its settings first; options that it is given come before them.
-/

namespace SafeMarkdown.Command

open Running

/-- A switch as a setting that is given: one that is not set gives none. -/
def givenSwitch (b : Bool) : Value :=
  if b then .bool true else .null

def givenText (s : Option String) : Value :=
  (s.map Value.str).getD .null

/-- The settings in force; an unusable one ends the command. -/
def settingsWith (environment : List (String × String)) (given : List (String × Value)) :
    Running Settings := do
  match Settings.load (← get).disk environment given with
  | .ok s => return s
  | .error e =>
    if e.isValueError then
      complain ("Error: " ++ e.message)
      giveUp
    else throw (.failure e)

def toldOfDocument (e : Failure) : Bool :=
  e.isFileError || e.isOwn || e.isValueError

def toldOfSite (e : Failure) : Bool :=
  e.isOwn || e.isValueError

def renderFile (d : Disk) (s : Settings) (p : Path) : Logged RenderedDocument := do
  let slug ← Logged.ofExcept (Site.slugFor p p.parent)
  let source ← Logged.ofExcept (d.readText p)
  (← Pipeline.make (← s.pipelineConfig)).process slug source s.strict

def markupOf (doc : RenderedDocument) : Running String := do
  let (markup, warnings) := Html.render [] (← require doc.payload.tree)
  warn warnings
  require markup

def render (environment : List (String × String)) (path : String) (html : Bool)
    (out : Option String) (strict : Bool) : Running Unit := do
  let s ← settingsWith environment [("strict_frontmatter", givenSwitch strict)]
  let d := (← get).disk
  let doc ← demand toldOfDocument ("Could not render " ++ path) (renderFile d s (Path.ofText path))
  let text ← if html then markupOf doc else pure doc.storedText
  match out.filter fun o ↦ !o.isEmpty with
  | some out =>
    store (← require (d.writeText (Path.ofText out) text))
    say ("  " ++ path ++ " -> " ++ out)
  | none => say text

def rootIn (s : Settings) (root : Option String) : String :=
  (root.filter fun r ↦ !r.isEmpty).getD s.contentRoot

def loadSite (s : Settings) (root : Option String) : Running Site.Batch := do
  let d := (← get).disk
  demand toldOfSite ("Could not load " ++ rootIn s root) do
    Site.loadAll d (Path.ofText (rootIn s root)) (← s.pipelineConfig)
      ⟨s.extensions, s.recursive, s.strict⟩

/-- Tells what could not be loaded. -/
def tellFaults : List Site.Fault → Running Unit
  | [] => pure ()
  | f :: rest => do
    complain ("  failed: " ++ f.slug ++ " (" ++ f.cause.kind ++ ": " ++ f.cause.message ++ ")")
    tellFaults rest

def padded (s : String) : String :=
  s ++ String.ofList (List.replicate (12 - s.length) ' ')

def listLine (doc : RenderedDocument) : String :=
  let date := (doc.frontMatter.date.filter fun d ↦ !d.isEmpty).getD "-"
  let title := (doc.frontMatter.title.filter fun t ↦ !t.isEmpty).elim "" fun t ↦ "  " ++ t
  padded date ++ " " ++ doc.slug ++ title

def checkLoaded (b : Site.Batch) : Running Unit :=
  if b.documents.isEmpty && !b.faults.isEmpty then giveUp else pure ()

/-- Says one line after the other. -/
def sayAll : List String → Running Unit
  | [] => pure ()
  | line :: rest => do
    say line
    sayAll rest

def list (environment : List (String × String)) (root : Option String) (recursive : Bool) :
    Running Unit := do
  let s ← settingsWith environment [("recursive", givenSwitch recursive)]
  let b ← loadSite s root
  sayAll (b.documents.map listLine)
  tellFaults b.faults
  checkLoaded b

/-- A disk on which something was written; a fault of the files ends the command. -/
def written (r : Except Failure Disk) : Running Unit := do
  store (← demand Failure.isFileError "Build failed" (Logged.ofExcept r))

def writeDocuments (output : Path) : List RenderedDocument → Running Unit
  | [] => pure ()
  | doc :: rest => do
    written (Site.writeDocument output (← get).disk doc)
    say ("  " ++ doc.slug ++ " -> " ++ (Site.documentPath output doc.slug).text)
    writeDocuments output rest

/-- Writes the documents and the index into a folder. -/
def publish (output : Path) (b : Site.Batch) : Running Unit := do
  writeDocuments output b.documents
  written (Site.writeIndex output (← get).disk b)
  tellFaults b.faults
  let failed := if b.faults.isEmpty then "" else ", " ++ toString b.faults.length ++ " failed"
  say ("Built " ++ toString b.documents.length ++ " document(s) to " ++ output.text ++ "/" ++ failed)
  checkLoaded b

def build (environment : List (String × String)) (root out : Option String) (recursive : Bool) :
    Running Unit := do
  let s ← settingsWith environment
    [("output_dir", givenText out), ("recursive", givenSwitch recursive)]
  let b ← loadSite s root
  publish (Path.ofText s.outputFolder) b

def schemaText (s : Schema) : String :=
  Yaml.Writer.document [
    ("allowed_tags", .list s.tags),
    ("allowed_attributes", .mapping (s.attributes.foldr Schema.insertEntry [])),
    ("global_attributes", .list s.globals),
    ("protocols", .mapping (s.protocols.foldr Schema.insertEntry []))]

/-- Shows the schema in force. -/
def schema (environment : List (String × String)) : Running Unit := do
  let s ← settingsWith environment []
  let _ ← attempt (PipelineConfig.announce s.schema)
  say (schemaText s.schema)

def perform (environment : List (String × String)) : Task → Running Unit
  | .render path html out strict => render environment path html out strict
  | .list root recursive => list environment root recursive
  | .build root out recursive => build environment root out recursive
  | .schema => schema environment

/-- The outcome of a command line. -/
structure Outcome where
  status : Nat
  /-- Whether it ran a task, and not just told how to ask for one. -/
  isTask : Bool
  session : Session
  escaped : Option Failure := none

def shownLog (environment : List (String × String)) (verbose : Bool) (entries : List LogEntry) :
    Except Failure (List LogEntry) := do
  let output ← LogOutput.setUp environment (if verbose then some "DEBUG" else none) none
  return entries.filter output.shows

/-- Runs a command line. -/
def run (environment : List (String × String)) (words : List String) (disk : Disk) : Outcome :=
  match Request.ofWords words with
  | .usage => ⟨2, false, { disk }, none⟩
  | .help => ⟨0, false, { disk }, none⟩
  | .perform verbose task =>
    let (result, session) := ((perform environment task).run).run { disk }
    match shownLog environment verbose session.log with
    | .error e => ⟨1, true, { disk }, some e⟩
    | .ok log =>
      let session := { session with log }
      match result with
      | .ok () => ⟨0, true, session, none⟩
      | .error (.status n) => ⟨n, true, session, none⟩
      | .error (.failure e) => ⟨1, true, session, some e⟩

end SafeMarkdown.Command
