import SafeMarkdown.Command.Run

/-!
# The command line

The program reads what is at and below the working directory, runs the command on it, and brings the
changed files back. Names of files that start with a dot are read as well; what is no regular file
and no folder is passed over.
-/

open SafeMarkdown

partial def readFolder (entries : Array IO.FS.DirEntry) (place : Location) (d : Disk) : IO Disk := do
  let mut d := d
  for entry in entries do
    let here := place ++ [entry.fileName]
    let kind := (← entry.path.metadata).type
    match kind with
    | .dir => d ← readFolder (← entry.path.readDir) here (d.putFolder here)
    | .file => d := d.putFile here (← IO.FS.readBinFile entry.path).toList
    | _ => pure ()
  return d

/-- The variables of the environment that matter. -/
def readEnvironment : IO (List (String × String)) := do
  let names := "MDRENDER_LOG_LEVEL" ::
    Settings.names.map fun name ↦ "MDRENDER_" ++ String.ofList (Text.upper name.toList)
  names.filterMapM fun name ↦ do return (← IO.getEnv name).map fun v ↦ (name, v)

def writeChanges (before after : Disk) : IO Unit := do
  for f in after.files do
    if before.file? f.1 != some f.2 then
      let folder := "/".intercalate f.1.dropLast
      unless folder.isEmpty do IO.FS.createDirAll folder
      IO.FS.writeBinFile ("/".intercalate f.1) ⟨f.2.toArray⟩

/-- Runs a command line in the working directory. -/
def main (words : List String) : IO UInt32 := do
  let before ← readFolder (← (← IO.currentDir).readDir) [] {}
  let outcome := Command.run (← readEnvironment) words before
  IO.print outcome.session.output
  for entry in outcome.session.log do IO.eprintln (LogOutput.line entry)
  for message in outcome.session.warnings do IO.eprintln ("UnsupportedSyntaxWarning: " ++ message)
  for line in outcome.session.complaints do IO.eprintln line
  match outcome.escaped with
  | some cause => IO.eprintln (cause.kind ++ ": " ++ cause.message)
  | none => pure ()
  writeChanges before outcome.session.disk
  return UInt32.ofNat outcome.status
