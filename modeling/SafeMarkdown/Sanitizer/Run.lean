import SafeMarkdown.Sanitizer.Admission
import SafeMarkdown.Sanitizer.Filter
import SafeMarkdown.Sanitizer.Removal
import SafeMarkdown.Tree.Node

/-!
# Sanitizing

Sanitizing admits the raw markup below the top of a tree, filters what it finds there through a
schema, and leaves every id with one element. Whatever the schema does not know is removed and
recorded.

An id names one element. The ids of headings are reserved: the first heading with a reserved id
keeps it, whatever stands before it. Any other id belongs to the first element that has it.
-/

namespace SafeMarkdown.Sanitizer

/-- The text of an id that counts as something; null when it has none. A list or an object cannot be
compared with other ids. -/
def reservedId (n : Node) : Except Failure (Option String) :=
  match n.attrs.get? "id" with
  | some (.str id) => .ok (if n.flagged "level" && !id.isEmpty then some id else none)
  | some (.arr items) =>
    if n.flagged "level" && !items.isEmpty then .error (.wrongShape "a list is no id") else .ok none
  | some (.obj fields) =>
    if n.flagged "level" && !fields.isEmpty then .error (.wrongShape "an object is no id")
    else .ok none
  | _ => .ok none

def reservedIds : List Node → Except Failure (List String)
  | [] => .ok []
  | n :: rest => do
    let id ← reservedId n
    let ids ← reservedIds rest
    return id.toList ++ ids

/-- Whether an element keeps its id, given the reserved ids and those that were kept before. -/
def keepsId (reserved kept : List String) (heading : Bool) (id : String) : Bool :=
  !kept.contains id && (heading || !reserved.contains id)

mutual

/-- Removes the ids that are not kept from a tree; `kept` are those kept before. -/
def distinctIds (reserved kept : List String) : Node → Node × List String × List Removal
  | ⟨kind, tag, attrs, children, value, data⟩ =>
    match kind, attrs.get? "id" with
    | .element, some (.str id) =>
      if keepsId reserved kept (Node.flagged ⟨kind, tag, attrs, children, value, data⟩ "level") id then
        let (nodes, kept, removals) := distinctIdsAll reserved (id :: kept) children
        (⟨kind, tag, attrs, nodes, value, data⟩, kept, removals)
      else
        let (nodes, kept, removals) := distinctIdsAll reserved kept children
        (⟨kind, tag, attrs.erase "id", nodes, value, data⟩, kept,
          .stripAttribute tag "id" :: removals)
    | _, _ =>
      let (nodes, kept, removals) := distinctIdsAll reserved kept children
      (⟨kind, tag, attrs, nodes, value, data⟩, kept, removals)

def distinctIdsAll (reserved kept : List String) :
    List Node → List Node × List String × List Removal
  | [] => ([], kept, [])
  | n :: rest =>
    let (m, kept, removals) := distinctIds reserved kept n
    let (ms, kept, more) := distinctIdsAll reserved kept rest
    (m :: ms, kept, removals ++ more)

end

/-- Leaves every id of a tree with one element. -/
def dedupeIds (tree : Node) : Except Failure (Node × List Removal) := do
  let reserved ← reservedIds tree.walk
  let (tree, _, removals) := distinctIds reserved [] tree
  return (tree, removals)

def sanitize (s : Schema) (tree : Node) : Except Failure (Node × List Removal) := do
  let (admitted, markup) ← admission tree.children
  let (kept, filtered) := filterChildren s admitted
  let (tree, ids) ← dedupeIds { tree with children := kept }
  return (tree, markup ++ filtered ++ ids)

end SafeMarkdown.Sanitizer
