import SafeMarkdown.Storage.Path
import SafeMarkdown.Text.Bytes

/-!
# Disks

The files and folders at and below a working directory. A place on a disk is the list of names that
leads to it, without dots; `locate` is the one way from a path to its place, and it passes through
folders only. What lies outside the working directory does not exist.
-/

namespace SafeMarkdown

/-- A place on a disk: the names from the working directory on. -/
abbrev Location := List String

/-- Files with their bytes, and folders. -/
structure Disk where
  files : List (Location × List UInt8) := []
  folders : List Location := []

namespace Disk

def file? (d : Disk) (l : Location) : Option (List UInt8) :=
  d.files.lookup l

def hasFolder (d : Disk) (l : Location) : Bool :=
  l.isEmpty || d.folders.contains l

/-- Where names lead from a place on. Each name is looked up in a folder; the last one may name
nothing. -/
def follow (d : Disk) : Location → List String → Except FileFault Location
  | place, [] => .ok place
  | place, name :: rest =>
    if !d.hasFolder place then
      if (d.file? place).isSome then .error .notDirectory else .error .missing
    else if name == Path.above then
      if place.isEmpty then .error .missing else follow d place.dropLast rest
    else follow d (place ++ [name]) rest

def locate (d : Disk) (p : Path) : Except FileFault Location :=
  if p.slashes = 0 then d.follow [] p.names else .error .missing

/-- A path that a file can have: no name holds a null character. -/
def nameable (p : Path) : Except Failure Unit :=
  if p.text.toList.any fun c ↦ c.toNat = 0 then .error (.unusable "embedded null byte")
  else .ok ()

def isFolder (d : Disk) (p : Path) : Bool :=
  match d.locate p with
  | .ok place => d.hasFolder place
  | .error _ => false

def isFile (d : Disk) (p : Path) : Bool :=
  match d.locate p with
  | .ok place => !d.hasFolder place && (d.file? place).isSome
  | .error _ => false

def holds (d : Disk) (p : Path) : Bool :=
  d.isFolder p || d.isFile p

def readBytes (d : Disk) (p : Path) : Except Failure (List UInt8) := do
  nameable p
  match d.locate p with
  | .error fault => throw (.file fault p.text)
  | .ok place =>
    if d.hasFolder place then throw (.file .isDirectory p.text)
    match d.file? place with
    | some bytes => return bytes
    | none => throw (.file .missing p.text)

/-- The text of the file that a path leads to, with line feeds for line ends. -/
def readText (d : Disk) (p : Path) : Except Failure String := do
  match Text.decodeUtf8 (← d.readBytes p) with
  | .ok s => return String.ofList (Text.unifyLineEnds s)
  | .error fault => throw (.encoding fault)

/-- The files in a folder, by the names that lead to them; those in folders below only if asked
for. -/
def filesIn (d : Disk) (folder : Location) (deep : Bool) : List (List String) :=
  d.files.filterMap fun f ↦
    if folder.isPrefixOf f.1 then
      match f.1.drop folder.length with
      | [] => none
      | [name] => some [name]
      | names => if deep then some names else none
    else none

def putFile (d : Disk) (place : Location) (bytes : List UInt8) : Disk :=
  { d with files := d.files.filter (fun f ↦ f.1 != place) ++ [(place, bytes)] }

def putFolder (d : Disk) (place : Location) : Disk :=
  if d.hasFolder place then d else { d with folders := d.folders ++ [place] }

def writeText (d : Disk) (p : Path) (text : String) : Except Failure Disk := do
  nameable p
  match d.locate p with
  | .error fault => throw (.file fault p.text)
  | .ok place =>
    if d.hasFolder place then throw (.file .isDirectory p.text)
    return d.putFile place text.toUTF8.toList

/-- Makes the folder that a path leads to; its parent has to be there. One that is there already
is fine. -/
def makeFolder (d : Disk) (p : Path) : Except Failure Disk :=
  match d.locate p with
  | .error fault => .error (.file fault p.text)
  | .ok place =>
    if d.hasFolder place then .ok d
    else if (d.file? place).isSome then .error (.file .exists p.text)
    else .ok (d.putFolder place)

/-- Makes the folder of a path whose names are given last name first. Only if it has nowhere to be
are the folders made that the path leads through. -/
def makeFrom (slashes : Nat) (d : Disk) : List String → Except Failure Disk
  | [] => d.makeFolder ⟨slashes, []⟩
  | name :: up =>
    let p : Path := ⟨slashes, (name :: up).reverse⟩
    match d.locate p with
    | .error .missing => do (← makeFrom slashes d up).makeFolder p
    | _ => d.makeFolder p

/-- Makes the folder that a path leads to and those that it leads through. -/
def makeFolders (d : Disk) (p : Path) : Except Failure Disk := do
  nameable p
  makeFrom p.slashes d p.names.reverse

end Disk

end SafeMarkdown
