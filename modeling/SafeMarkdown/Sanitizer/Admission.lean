import SafeMarkdown.Html.Writer
import SafeMarkdown.Html.Fragment
import SafeMarkdown.Sanitizer.Removal
import SafeMarkdown.Tree.Node

/-!
# Admission of raw markup

Raw markup among siblings is resolved together with them: the siblings are written as one text, in
which text is escaped and every other node is a slot with its index, and the fragment that this text
forms takes the siblings' place. So a tag that opens in one piece of markup and closes in another
makes one element around what lies between. Each slot is filled once, at its first occurrence; a
slot that the markup forges finds its index taken or unknown.
-/

namespace SafeMarkdown.Sanitizer

def slotTag : String := "mdrender-slot"

def slotAttribute : String := "data-index"

abbrev Slots := List (String × Node)

def siblingText (index : Nat) (n : Node) : List Char :=
  if n.isRaw then n.text.toList
  else if n.isText then (Html.escapeText n.text).toList
  else
    ("<" ++ slotTag ++ " " ++ slotAttribute ++ "=\"" ++ toString index ++ "\"></" ++ slotTag ++
      ">").toList

def siblingsText (index : Nat) : List Node → List Char
  | [] => []
  | n :: rest => siblingText index n ++ siblingsText (index + 1) rest

def slotsOf (index : Nat) : List Node → Slots
  | [] => []
  | n :: rest =>
    if n.isRaw || n.isText then slotsOf (index + 1) rest
    else (toString index, n) :: slotsOf (index + 1) rest

def isWordList (tag name : String) : Bool :=
  match name with
  | "class" | "accesskey" | "dropzone" => true
  | "rel" => tag == "a" || tag == "link" || tag == "area"
  | "rev" => tag == "a" || tag == "link"
  | "headers" => tag == "td" || tag == "th"
  | "accept-charset" => tag == "form"
  | "archive" => tag == "object"
  | "sizes" => tag == "icon"
  | "sandbox" => tag == "iframe"
  | "for" => tag == "output"
  | _ => false

/-- The value of an attribute: classes are a list, other lists of words are parted by one space. -/
def attributeOf (tag name value : String) : Value :=
  if isWordList tag name then
    let ws := Text.wordsOf value
    if name == "class" then .arr (ws.map .str) else .str (" ".intercalate ws)
  else .str value

/-- What is left to admit: the slots not yet filled, and the removals so far, last first. -/
structure Admission where
  slots : Slots
  removals : List Removal := []

mutual

/-- The nodes that an item becomes. -/
def ofItem : Html.Item → StateM Admission (List Node)
  | .text s => pure [Node.ofText s]
  | .markup => do
    modify fun a ↦ { a with removals := .stripMarkup :: a.removals }
    return []
  | .element name attrs children => do
    if name == slotTag then
      let a ← get
      match attrs.lookup slotAttribute with
      | none => return []
      | some index =>
        match a.slots.lookup index with
        | none => return []
        | some n =>
          set { a with slots := a.slots.filter fun s ↦ s.1 != index }
          return [n]
    else
      let nodes ← ofItems children
      let attrs := attrs.map fun (n, v) ↦ (n, attributeOf name n v)
      return [Node.element name attrs nodes]

def ofItems : List Html.Item → StateM Admission (List Node)
  | [] => pure []
  | i :: rest => do
    let nodes ← ofItem i
    let others ← ofItems rest
    return nodes ++ others

end

/-- Resolves the raw markup among siblings. -/
def resolve (siblings : List Node) : Except Failure (List Node × List Removal) :=
  if siblings.any Node.isRaw then
    (Html.parseFragment (siblingsText 0 siblings)).map fun items ↦
      let (nodes, a) := (ofItems items).run { slots := slotsOf 0 siblings }
      (nodes, a.removals.reverse)
  else .ok (siblings, [])

mutual

/-- Resolves the raw markup below a node. -/
def admitBelow : Node → Except Failure (Node × List Removal)
  | ⟨kind, tag, attrs, children, value, data⟩ =>
    if kind == .raw then .ok (⟨kind, tag, attrs, children, value, data⟩, [])
    else do
      let (nodes, below) ← admitEach children
      let (nodes, here) ← resolve nodes
      return (⟨kind, tag, attrs, nodes, value, data⟩, below ++ here)

def admitEach : List Node → Except Failure (List Node × List Removal)
  | [] => .ok ([], [])
  | n :: rest => do
    let (m, first) ← admitBelow n
    let (ms, others) ← admitEach rest
    return (m :: ms, first ++ others)

end

/-- Resolves the raw markup among siblings and below them, innermost first. -/
def admission (siblings : List Node) : Except Failure (List Node × List Removal) := do
  let (nodes, below) ← admitEach siblings
  let (nodes, here) ← resolve nodes
  return (nodes, below ++ here)

end SafeMarkdown.Sanitizer
