import SafeMarkdown.Failure
import SafeMarkdown.Text.Blank

/-!
# Paths

A path is a list of names under an optional root. Reading a text drops empty names and single dots;
double dots stay, as what they lead to depends on the files. The suffix of a path is the end of its
last name from the last dot on, unless that dot is the first or the last character.
-/

namespace SafeMarkdown

/-- A path: the number of slashes that it is rooted with, none for a relative path, and its names. -/
structure Path where
  slashes : Nat := 0
  names : List String
  deriving DecidableEq, Repr

namespace Path

def here : Path := ⟨0, []⟩

def above : String := ".."

/-- The number of slashes that a text is rooted with. Two slashes are a root of their own, any other
number counts as one. -/
def rootSlashes (s : List Char) : Nat :=
  match (s.takeWhile (· == '/')).length with
  | 0 => 0
  | 2 => 2
  | _ => 1

/-- The names between slashes; empty ones and single dots do not count. -/
def namesOf (s : List Char) : List String :=
  ((Text.splitAtEach (· == '/') s).filter fun n ↦ !n.isEmpty && n != ['.']).map String.ofList

def ofText (s : String) : Path :=
  ⟨rootSlashes s.toList, namesOf s.toList⟩

def spelled (slashes : Nat) (names : List String) : String :=
  String.ofList (List.replicate slashes '/') ++ "/".intercalate names

def text (p : Path) : String :=
  if p.slashes = 0 && p.names.isEmpty then "." else spelled p.slashes p.names

/-- A path from another one on; a rooted path stands for itself. -/
def join (p q : Path) : Path :=
  if q.slashes = 0 then ⟨p.slashes, p.names ++ q.names⟩ else q

def child (p : Path) (name : String) : Path :=
  ⟨p.slashes, p.names ++ [name]⟩

def parent (p : Path) : Path :=
  ⟨p.slashes, p.names.dropLast⟩

def name (p : Path) : String :=
  p.names.getLast?.getD ""

def splitSuffix (name : List Char) : List Char × List Char :=
  let back := name.reverse
  let ending := back.takeWhile (· != '.')
  let stem := (back.drop (ending.length + 1)).reverse
  if ending.isEmpty || stem.isEmpty then (name, []) else (stem, '.' :: ending.reverse)

def suffix (p : Path) : String :=
  String.ofList (splitSuffix p.name.toList).2

def stem (name : String) : String :=
  String.ofList (splitSuffix name.toList).1

/-- The names of a path without the suffix of the last one. -/
def stemNames : List String → List String
  | [] => []
  | [name] => [stem name]
  | name :: rest => name :: stemNames rest

/-- The names that lead from a directory to a path below it, if the path says that it is below. -/
def below? (root p : Path) : Option (List String) :=
  if root.slashes == p.slashes && root.names.isPrefixOf p.names then
    some (p.names.drop root.names.length)
  else none

/-- The names that lead from a directory to a path. -/
def relativeTo (p root : Path) : Except Failure (List String) :=
  match below? root p with
  | some names => .ok names
  | none => .error (.unusable (Text.quoted p.text ++ " is not in the subpath of " ++
      Text.quoted (spelled root.slashes root.names) ++
      " OR one path is relative and the other is absolute."))

/-- Whether names may stand before other ones: the first that differ decide, and what ends comes
before what goes on. -/
def namesNotAfter : List String → List String → Bool
  | [], _ => true
  | _ :: _, [] => false
  | m :: ms, n :: ns => if m == n then namesNotAfter ms ns else decide (m < n)

end Path

end SafeMarkdown
