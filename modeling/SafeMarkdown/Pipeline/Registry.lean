import SafeMarkdown.Code.Highlight
import SafeMarkdown.Gfm.Enrich
import SafeMarkdown.Heading.Anchor
import SafeMarkdown.Pipeline.Stage
import SafeMarkdown.Sanitizer.Run

/-!
# The stages at hand

The stages that go by a name, and how a list of stages is put together. When a configuration
sanitizes, the sanitizer runs once and last; when it does not, the sanitizer is left out.
-/

namespace SafeMarkdown.Stage

/-- Marks task lists and links bare URLs. -/
def gfm : Stage where
  name := "gfm"
  capability := .transforms
  label := "GfmStage"
  apply := fun _ tree ↦ Staged.ofExcept (Gfm.enrich tree)

/-- Gives headings their ids. -/
def headingSlug : Stage where
  name := "heading-slug"
  capability := .annotates
  label := "HeadingSlugStage"
  apply := fun _ tree ↦ pure (Heading.withIds tree)

/-- Links headings to themselves. -/
def headingAutolink : Stage where
  name := "heading-autolink"
  capability := .transforms
  label := "HeadingAutolinkStage"
  apply := fun config tree ↦ pure (Heading.withLinks config.anchorClass tree)

/-- Highlights code blocks. -/
def highlight : Stage where
  name := "highlight"
  capability := .annotates
  label := "HighlightStage"
  apply := Code.highlight

def sanitizeName : String := "sanitize"

def sanitize : Stage where
  name := sanitizeName
  capability := .filters
  label := "SanitizeStage"
  apply := fun config tree ↦ do
    let (tree, removals) ← Staged.ofExcept (Sanitizer.sanitize config.schema tree)
    Staged.record removals
    return tree

/-- The stages that go by a name, in the order in which they run unless other ones are asked for. -/
def registered : List Stage :=
  [gfm, headingSlug, headingAutolink, highlight, sanitize]

/-- The stage that is asked for: by its name, or itself. -/
inductive Choice where
  | named (name : String)
  | given (s : Stage)

def Choice.resolve : Choice → Except Failure Stage
  | given s => .ok s
  | named name =>
    match registered.find? fun s ↦ s.name == name with
    | some s => .ok s
    | none => .error (.unusable ("Unknown pipeline stage: " ++ Text.quoted name ++ " (known: " ++
        ", ".intercalate (registered.map Stage.name) ++ ")"))

def resolveAll : List Choice → Except Failure (List Stage)
  | [] => .ok []
  | c :: rest => do
    let s ← c.resolve
    let others ← resolveAll rest
    return s :: others

def isSanitize (s : Stage) : Bool :=
  s.name == sanitizeName

def defaultChoices : List Choice :=
  registered.map .given

/-- The stages that run for some choices; no choices stand for the default ones. -/
def assemble (sanitizes : Bool) (choices : List Choice) : Logged (List Stage) := do
  let stages ← Logged.ofExcept
    (resolveAll (if choices.isEmpty then defaultChoices else choices))
  if !sanitizes then
    Logged.warn .pipeline
      "Sanitization disabled by configuration; raw HTML passes through unfiltered"
    return stages.filter fun s ↦ !s.isSanitize
  else if !stages.any isSanitize then return stages ++ [sanitize]
  else if stages.dropLast.any isSanitize then
    throw (.unusable "The sanitize stage must appear once, as the last stage")
  else return stages

end SafeMarkdown.Stage
