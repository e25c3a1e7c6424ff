import SafeMarkdown.Digest.Sha256
import SafeMarkdown.FrontMatter

/-!
# Payloads

What is handed on of a rendered document: the canonical text of its tree, the outline of its
headings, the warnings, and a digest of the tree and the metadata. The digest is taken of the
canonical text of the tree, a line feed and the canonical text of the metadata; canonical texts
hold no raw line feed, so the two halves cannot be confused.
-/

namespace SafeMarkdown

/-- An entry of a document's outline. -/
structure HeadingRef where
  slug : String
  text : String
  level : Nat
  deriving DecidableEq, Repr

/-- The result of rendering a document. -/
structure Payload where
  version : Nat := 1
  body : String
  headings : List HeadingRef := []
  warnings : List String := []
  digest : String

namespace Payload

/-- The outline entry of a node: a heading with a non-empty id has one, and the id has to be a
text. -/
def headingRef (n : Node) : Except Failure (Option HeadingRef) :=
  match n.headingLevel, n.attrs.get? "id" with
  | some level, some id =>
    if id.isTruthy then
      match id with
      | .str slug => .ok (some ⟨slug, Text.strip n.textContent, level⟩)
      | _ => .error (.invalid [("slug", "string_type")])
    else .ok none
  | _, _ => .ok none

/-- The outline of a list of nodes. -/
def headingRefs : List Node → Except Failure (List HeadingRef)
  | [] => .ok []
  | n :: rest => do
    let here ← headingRef n
    let others ← headingRefs rest
    return here.toList ++ others

def outline (tree : Node) : Except Failure (List HeadingRef) :=
  headingRefs tree.walk

def digestInput (body : String) (fm : FrontMatter) : Except Failure String := do
  let metadata ← Json.canonical (.obj fm.toFields)
  return body ++ "\n" ++ metadata

def digestOf (body : String) (fm : FrontMatter) : Except Failure String := do
  let input ← digestInput body fm
  return Sha256.hex input.toUTF8.toList

def ofTree (tree : Node) (fm : FrontMatter) (warnings : List String) : Except Failure Payload := do
  let body := tree.canonicalText
  let headings ← outline tree
  let digest ← digestOf body fm
  return { body, headings, warnings, digest }

def tree (p : Payload) : Except Failure Node :=
  match Json.parse? p.body.toList with
  | none => .error (.invalid [("", "json_invalid")])
  | some v =>
    match Node.ofValue v with
    | .ok n => .ok n
    | .error faults => .error (.invalid faults)

def stored (p : Payload) : Value :=
  .obj [
    ("version", .int p.version),
    ("body", .str p.body),
    ("headings", .arr (p.headings.map fun h ↦
      .obj [("slug", .str h.slug), ("text", .str h.text), ("level", .int h.level)])),
    ("warnings", .arr (p.warnings.map .str)),
    ("digest", .str p.digest)]

end Payload

structure RenderedDocument where
  slug : String
  frontMatter : FrontMatter
  payload : Payload

def RenderedDocument.storedText (d : RenderedDocument) : String :=
  Json.storedText (.obj [
    ("slug", .str d.slug),
    ("front_matter", d.frontMatter.stored),
    ("payload", d.payload.stored)])

end SafeMarkdown
