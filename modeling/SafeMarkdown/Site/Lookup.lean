import SafeMarkdown.Slug
import SafeMarkdown.Storage.Disk
import SafeMarkdown.Text.LetterCase

/-!
# Finding documents

The documents of a site are the files below its root that have one of its suffixes, in any case. A
document goes by a slug: the slugs of the names that lead to it, the last one without its suffix.
A slug leads to the file that it spells out with one of the suffixes, or else to the first
document, in the order of paths, that goes by it.
-/

namespace SafeMarkdown.Site

def standardExtensions : List String := [".md", ".mdx"]

/-- The slug of one name; a name without one is a document. -/
def segment (name : String) : String :=
  let s := Slug.ofText name
  if s.isEmpty then "doc" else s

def slugOfNames (names : List String) : String :=
  "/".intercalate ((Path.stemNames names).map segment)

def slugFor (p root : Path) : Except Failure String := do
  let names ← p.relativeTo root
  if names.isEmpty then throw (.unusable "PosixPath('.') has an empty name")
  return slugOfNames names

def hasExtension (extensions : List String) (names : List String) : Bool :=
  (extensions.map Text.lowercase).contains
    (Text.lowercase (Path.suffix ⟨0, names⟩))

def documentNames (d : Disk) (place : Location) (extensions : List String) (deep : Bool) :
    List (List String) :=
  ((d.filesIn place deep).filter (hasExtension extensions)).mergeSort Path.namesNotAfter

def below (root : Path) (names : List String) : Path :=
  ⟨root.slashes, root.names ++ names⟩

/-- The documents under a root, by the names that lead to them. -/
def discover (d : Disk) (root : Path) (extensions : List String) (deep : Bool) :
    Except Failure (List (List String)) :=
  match d.locate root with
  | .ok place =>
    if d.hasFolder place then .ok (documentNames d place extensions deep)
    else .error (.notFound root.text (some root.text))
  | .error _ => .error (.notFound root.text (some root.text))

def spelledPaths (root : Path) (slug : String) (extensions : List String) : List Path :=
  extensions.map fun suffix ↦ root.join (Path.ofText (slug ++ suffix))

/-- The first document under a root that goes by a slug. -/
def namesake? (d : Disk) (root : Path) (slug : String) (extensions : List String) : Option Path :=
  match discover d root extensions true with
  | .ok found => (found.find? fun names ↦ slugOfNames names == slug).map (below root)
  | .error _ => none

/-- The path that a slug leads to; where there is no such document, the first path that it spells
out. -/
def resolve (d : Disk) (root : Path) (slug : String) (extensions : List String) :
    Except Failure Path :=
  let spelled := spelledPaths root slug extensions
  match spelled.find? d.isFile with
  | some p => .ok p
  | none =>
    match namesake? d root slug extensions, spelled with
    | some p, _ => .ok p
    | none, p :: _ => .ok p
    | none, [] => .error .missingItem

end SafeMarkdown.Site
