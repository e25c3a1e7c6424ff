import SafeMarkdown.Markdown.Document
import SafeMarkdown.Payload
import SafeMarkdown.Pipeline.Registry

/-!
# Pipelines

A pipeline reads a document, runs its stages over the tree one after the other, and packs the result
up. A stage that fails stops the run; so does a document that cannot be read.
-/

namespace SafeMarkdown

/-- A pipeline that is ready to run. -/
structure Pipeline where
  config : PipelineConfig
  dialect : Markdown.Dialect
  stages : List Stage

namespace Pipeline

def make (config : PipelineConfig) (choices : List Stage.Choice := []) : Logged Pipeline := do
  match Markdown.Dialect.ofName? config.dialect with
  | none => throw .missingKey
  | some dialect => return { config, dialect, stages := ← Stage.assemble config.sanitizes choices }

/-- Runs a computation whose failures are those of a stage. -/
def inStage {α : Type} (name : String) (x : Logged α) : Logged α := do
  match ← x.attempt with
  | .ok a => return a
  | .error e => throw (.stage name e)

def parse (p : Pipeline) (body : String) : Logged Node :=
  inStage "parse" (Markdown.parse p.dialect body)

def runStages (config : PipelineConfig) : List Stage → Node → Notes → Logged (Node × Notes)
  | [], tree, notes => pure (tree, notes)
  | s :: rest, tree, notes => do
    let (tree, notes) ← inStage s.name ((s.apply config tree).run notes)
    Logged.debug .pipeline ("Stage " ++ s.name ++ " done")
    runStages config rest tree notes

def run (p : Pipeline) (tree : Node) : Logged (Node × Notes) :=
  runStages p.config p.stages tree {}

def render (p : Pipeline) (body : String) (fm : FrontMatter) : Logged Payload := do
  let (tree, notes) ← p.run (← p.parse body)
  Logged.ofExcept (Payload.ofTree tree fm notes.diagnostics)

end Pipeline

end SafeMarkdown
