import SafeMarkdown.Log
import SafeMarkdown.Storage.Disk

/-!
# Sessions

While a command runs, it writes lines to the output and complaints to the error output, logs, issues
warnings and changes the disk. It may stop early, with a status or because of a failure that it does
not deal with; what it did until then stays done.
-/

namespace SafeMarkdown.Command

/-- What a command has done so far. -/
structure Session where
  disk : Disk
  output : String := ""
  complaints : List String := []
  log : List LogEntry := []
  warnings : List String := []

/-- Why a command stopped early. -/
inductive Stop where
  | status (n : Nat)
  | failure (cause : Failure)

abbrev Running := ExceptT Stop (StateM Session)

namespace Running

def say (line : String) : Running Unit :=
  modify fun s ↦ { s with output := s.output ++ line ++ "\n" }

def complain (line : String) : Running Unit :=
  modify fun s ↦ { s with complaints := s.complaints ++ [line] }

def warn (messages : List String) : Running Unit :=
  modify fun s ↦ { s with warnings := s.warnings ++ messages }

def giveUp {α : Type} : Running α :=
  throw (.status 1)

/-- Runs a computation that logs and hands over its outcome. -/
def attempt {α : Type} (x : Logged α) : Running (Except Failure α) := do
  let (outcome, entries) := x.outcome
  modify fun s ↦ { s with log := s.log ++ entries }
  return outcome

/-- The result of a computation. Failures of some kinds are told under a heading and end the command
with a status; any other one stops it. -/
def demand {α : Type} (told : Failure → Bool) (heading : String) (x : Logged α) : Running α := do
  match ← attempt x with
  | .ok a => return a
  | .error e =>
    if told e then
      complain ("Error: " ++ heading)
      complain ("  " ++ e.message)
      giveUp
    else throw (.failure e)

/-- The result of a computation none of whose failures is dealt with. -/
def require {α : Type} (r : Except Failure α) : Running α :=
  match r with
  | .ok a => pure a
  | .error e => throw (.failure e)

def store (d : Disk) : Running Unit :=
  modify fun s ↦ { s with disk := d }

end Running

end SafeMarkdown.Command
