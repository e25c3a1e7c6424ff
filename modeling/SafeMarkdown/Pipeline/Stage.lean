import SafeMarkdown.Pipeline.Config
import SafeMarkdown.Sanitizer.Removal
import SafeMarkdown.Tree.Node

/-!
# Stages

A stage takes a tree to a tree. While it runs it may note diagnostics, which are logged as well, and
record removals; the notes of one stage add to those of the stages before it.
-/

namespace SafeMarkdown

/-- What a stage may do to a tree. -/
inductive Capability where
  /-- It adds information and removes no node. -/
  | annotates
  | transforms
  /-- It may remove nodes. -/
  | filters
  deriving DecidableEq, Repr

def Capability.name : Capability → String
  | annotates => "annotates"
  | transforms => "transforms"
  | filters => "filters"

/-- What the stages noted about a document. -/
structure Notes where
  diagnostics : List String := []
  removals : List Removal := []

/-- A step of a stage: it notes, logs and may fail. -/
abbrev Staged := StateT Notes Logged

namespace Staged

def warn (message : String) : Staged Unit := do
  Logged.warn .stages message
  modify fun notes ↦ { notes with diagnostics := notes.diagnostics ++ [message] }

def record (removals : List Removal) : Staged Unit :=
  modify fun notes ↦ { notes with removals := notes.removals ++ removals }

def ofExcept {α : Type} (r : Except Failure α) : Staged α :=
  StateT.lift (Logged.ofExcept r)

end Staged

/-- An ordered step from tree to tree; `label` is what it calls itself. -/
structure Stage where
  name : String
  capability : Capability
  label : String
  apply : PipelineConfig → Node → Staged Node

def Stage.display (s : Stage) : String :=
  "<" ++ s.label ++ " " ++ s.name ++ " (" ++ s.capability.name ++ ")>"

end SafeMarkdown
