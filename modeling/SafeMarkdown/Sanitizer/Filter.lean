import SafeMarkdown.Sanitizer.Removal
import SafeMarkdown.Schema
import SafeMarkdown.Tree.Node

/-!
# Filtering

A tree without raw markup goes through a schema node by node. An allowed element keeps its allowed
attributes. An element that is not allowed gives way to its children, or is dropped with them when
its tag is unsafe or it handles events. A component is dropped when its name is an unsafe tag, and
keeps the attributes that neither handle events nor hold a script.
-/

namespace SafeMarkdown.Sanitizer

def scriptSchemes : List String := ["javascript", "vbscript"]

/-- The attributes of an allowed element that stay, under lowercase names, and the removals of the
others. -/
def filterAttributes (s : Schema) (tag : String) (attrs : Fields) : Fields × List Removal :=
  attrs.foldl
    (fun (kept, removals) (name, v) ↦
      if s.allowsAttribute tag name && s.allowsUrl name v then
        (kept.set (Text.lowercase name) v, removals)
      else (kept, removals ++ [.stripAttribute (some tag) name]))
    ([], [])

def allowsComponentAttribute (name : String) (v : Value) : Bool :=
  !Schema.isEventHandler name &&
    match v with
    | .str url => !(Schema.urlScheme url).any scriptSchemes.contains
    | _ => true

def filterComponentAttributes (tag : Option String) (attrs : Fields) : Fields × List Removal :=
  (attrs.filter fun f ↦ allowsComponentAttribute f.1 f.2,
    (attrs.filter fun f ↦ !allowsComponentAttribute f.1 f.2).map fun f ↦ .stripAttribute tag f.1)

mutual

def filterNode (s : Schema) : Node → List Node × List Removal
  | ⟨.text, tag, attrs, children, value, data⟩ =>
    ([⟨.text, tag, attrs, children, value, data⟩], [])
  | ⟨.raw, _, _, _, _, _⟩ => ([], [.stripMarkup])
  | ⟨.component, tag, attrs, children, value, data⟩ =>
    if unsafeTags.contains (Text.lowercase (tag.getD "")) then ([], [.drop tag])
    else
      let (attrs, stripped) := filterComponentAttributes tag attrs
      let (nodes, below) := filterAll s children
      ([⟨.component, tag, attrs, Node.mergeText nodes, value, data⟩], stripped ++ below)
  | ⟨.root, tag, attrs, children, value, data⟩ =>
    let (nodes, below) := filterAll s children
    ([⟨.root, tag, attrs, Node.mergeText nodes, value, data⟩], below)
  | ⟨.element, tag, attrs, children, value, data⟩ =>
    let name := Text.lowercase (tag.getD "")
    if s.allowsTag name then
      let (attrs, stripped) := filterAttributes s name attrs
      let (nodes, below) := filterAll s children
      ([⟨.element, some name, attrs, Node.mergeText nodes, value, data⟩], stripped ++ below)
    else if unsafeTags.contains name || attrs.any fun f ↦ Schema.isEventHandler f.1 then
      ([], [.drop (some name)])
    else
      let (nodes, below) := filterAll s children
      (Node.mergeText nodes, .unwrap name :: below)

def filterAll (s : Schema) : List Node → List Node × List Removal
  | [] => ([], [])
  | n :: rest =>
    let (nodes, removals) := filterNode s n
    let (others, more) := filterAll s rest
    (nodes ++ others, removals ++ more)

end

/-- What becomes of siblings; neighbouring texts are joined. -/
def filterChildren (s : Schema) (siblings : List Node) : List Node × List Removal :=
  let (nodes, removals) := filterAll s siblings
  (Node.mergeText nodes, removals)

end SafeMarkdown.Sanitizer
