import SafeMarkdown.Failure
import SafeMarkdown.Text.LetterCase

/-!
# Log entries

What the library notes while it works. An operation that logs returns its entries, in order, also
when it fails. Entries are shown from a level on, which a caller or else the environment names. The
level is set once; what is asked for later does not change it.
-/

namespace SafeMarkdown

/-- How much an entry matters. -/
inductive Severity where
  | debug
  | info
  | warning
  | error
  | critical
  deriving DecidableEq, Repr

namespace Severity

def rank : Severity → Nat
  | debug => 10
  | info => 20
  | warning => 30
  | error => 40
  | critical => 50

def name : Severity → String
  | debug => "DEBUG"
  | info => "INFO"
  | warning => "WARNING"
  | error => "ERROR"
  | critical => "CRITICAL"

end Severity

/-- The part of the library that an entry comes from. -/
inductive LogSource where
  | frontMatter
  | loader
  | markdown
  | pipeline
  | schema
  | stages
  | highlight
  deriving DecidableEq, Repr

def LogSource.name : LogSource → String
  | frontMatter => "mdrender.core.frontmatter"
  | loader => "mdrender.core.loader"
  | markdown => "mdrender.core.parse"
  | pipeline => "mdrender.core.pipeline"
  | schema => "mdrender.core.schema"
  | stages => "mdrender.core.stages.base"
  | highlight => "mdrender.core.stages.highlight"

structure LogEntry where
  severity : Severity
  source : LogSource
  message : String

abbrev Logged := ExceptT Failure (StateM (List LogEntry))

namespace Logged

def write (severity : Severity) (source : LogSource) (message : String) : Logged Unit :=
  modify fun entries ↦ entries ++ [⟨severity, source, message⟩]

def warn (source : LogSource) (message : String) : Logged Unit :=
  write .warning source message

def debug (source : LogSource) (message : String) : Logged Unit :=
  write .debug source message

def outcome {α : Type} (x : Logged α) : Except Failure α × List LogEntry :=
  x.run.run []

def ofExcept {α : Type} (r : Except Failure α) : Logged α :=
  match r with
  | .ok a => pure a
  | .error e => throw e

/-- Runs a computation and hands over its outcome instead of failing. -/
def attempt {α : Type} (x : Logged α) : Logged (Except Failure α) :=
  ExceptT.lift x.run

end Logged

/-- Where the log goes: to the error output alone, from a level on. -/
structure LogOutput where
  level : Nat
  deriving DecidableEq, Repr

namespace LogOutput

def lineFormat : String := "[%(levelname)s] %(name)s: %(message)s"

def standardLevel : Nat := 30

def levels : List (String × Nat) := [
  ("CRITICAL", 50), ("FATAL", 50), ("ERROR", 40), ("WARNING", 30), ("WARN", 30), ("INFO", 20),
  ("DEBUG", 10), ("NOTSET", 0)]

/-- The level that a name stands for. Two names stand for what is no level. -/
def levelNamed (name : String) : Except Failure Nat :=
  if name == "BASIC_FORMAT" then
    .error (.unusable "Unknown level: '%(levelname)s:%(name)s:%(message)s'")
  else if name == "_STYLES" then .error (.wrongShape "a level is a number or a text")
  else .ok ((levels.lookup name).getD standardLevel)

/-- The name of the level that is asked for, or else the one that the environment gives. -/
def nameInForce (environment : List (String × String)) (asked : Option String) : String :=
  match asked.filter fun name ↦ !name.isEmpty with
  | some name => name
  | none => (environment.lookup "MDRENDER_LOG_LEVEL").getD "WARNING"

/-- The output after a request, given the one that is set up already. -/
def setUp (environment : List (String × String)) (asked : Option String) :
    Option LogOutput → Except Failure LogOutput
  | some output => .ok output
  | none =>
    (levelNamed (String.ofList (Text.upper (nameInForce environment asked).toList))).map .mk

/-- Whether an entry is shown. The level zero leaves it at the standard one. -/
def shows (o : LogOutput) (e : LogEntry) : Bool :=
  (if o.level = 0 then standardLevel else o.level) ≤ e.severity.rank

def line (e : LogEntry) : String :=
  "[" ++ e.severity.name ++ "] " ++ e.source.name ++ ": " ++ e.message

end LogOutput

end SafeMarkdown
