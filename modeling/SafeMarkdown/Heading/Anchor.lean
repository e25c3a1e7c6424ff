import SafeMarkdown.Slug
import SafeMarkdown.Tree.Node

/-!
# Heading anchors

Every heading gets an id from its text, distinct from the ids of the headings before it, and a link
to itself around what it holds.
-/

namespace SafeMarkdown.Heading

def fallbackSlug : String := "section"

def baseSlug (n : Node) : String :=
  let slug := Slug.ofText n.textContent
  if slug.isEmpty then fallbackSlug else slug

mutual

/-- Gives the headings of a tree their ids; `taken` are the slugs given before, last first. -/
def assignIds (taken : List String) : Node → Node × List String
  | ⟨kind, tag, attrs, children, value, data⟩ =>
    let n : Node := ⟨kind, tag, attrs, children, value, data⟩
    if n.headingLevel.isSome then
      let slug := Slug.unique (baseSlug n) taken
      let (nodes, taken) := assignIdsAll (slug :: taken) children
      (⟨kind, tag, attrs.set "id" (.str slug), nodes, value, data⟩, taken)
    else
      let (nodes, taken) := assignIdsAll taken children
      (⟨kind, tag, attrs, nodes, value, data⟩, taken)

def assignIdsAll (taken : List String) : List Node → List Node × List String
  | [] => ([], taken)
  | n :: rest =>
    let (m, taken) := assignIds taken n
    let (ms, taken) := assignIdsAll taken rest
    (m :: ms, taken)

end

def withIds (tree : Node) : Node :=
  (assignIds [] tree).1

/-- The link around the content of a heading with an id. -/
def anchor (anchorClass : Option String) (id : Value) (children : List Node) : Node :=
  let href := [("href", Value.str ("#" ++ id.display))]
  let attrs := match anchorClass with
    | some c => if c.isEmpty then href else href ++ [("class", .arr [.str c])]
    | none => href
  Node.element "a" attrs children

mutual

/-- Links every heading with an id to itself. -/
def withLinks (anchorClass : Option String) : Node → Node
  | ⟨kind, tag, attrs, children, value, data⟩ =>
    let nodes := withLinksAll anchorClass children
    match Node.headingLevel ⟨kind, tag, attrs, children, value, data⟩, attrs.get? "id" with
    | some _, some id =>
      ⟨kind, tag, attrs, if id.isTruthy then [anchor anchorClass id nodes] else nodes, value, data⟩
    | _, _ => ⟨kind, tag, attrs, nodes, value, data⟩

def withLinksAll (anchorClass : Option String) : List Node → List Node
  | [] => []
  | n :: rest => withLinks anchorClass n :: withLinksAll anchorClass rest

end

end SafeMarkdown.Heading
