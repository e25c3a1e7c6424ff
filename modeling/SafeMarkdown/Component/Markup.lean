import SafeMarkdown.Component.Tag
import SafeMarkdown.Log
import SafeMarkdown.Tree.Node

/-!
# Components in raw markup

A piece of raw markup is either kept for the sanitizer or read as a component tag. A component that
closes in the same piece is complete; otherwise its tag is a marker and the rest of the piece
follows it. Where blocks stand, what is inside or behind a tag is a document of its own; inside a
line it is text.

The opening and the closing tag of a component may stand apart among siblings. Each is a marker, a
component without children whose data tell that it opens or closes. An opening marker and the
closing one of its name, with no open marker between, make a component around the siblings between
them. A marker that finds no partner becomes the literal text of its source.
-/

namespace SafeMarkdown.Component

/-- The literal text of a tag, as a paragraph where blocks stand. -/
def literal (s : Option String) (block : Bool) : Node :=
  let text : Node := { kind := .text, value := s }
  if block then Node.element "p" [] [text] else text

def openMarker (name : String) (attrs : Fields) (source : String) (block : Bool) : Node :=
  Node.component name attrs []
    [("source", .str source), ("open", .bool true), ("block", .bool block)]

def closeMarker (name source : String) (block : Bool) : Node :=
  Node.component name [] [] [("source", .str source), ("close", .bool true), ("block", .bool block)]

def isOpenMarker (n : Node) : Bool :=
  n.kind == .component && n.flagged "open"

def isCloseMarker (n : Node) : Bool :=
  n.kind == .component && n.flagged "close"

def literalOf (marker : Node) : Except Failure Node :=
  match marker.data.get? "source" with
  | none => .error .missingKey
  | some (.str s) => .ok (literal (some s) (marker.flagged "block"))
  | some .null => .ok (literal none (marker.flagged "block"))
  | some _ => .error (.invalid [("value", "string_type")])

def complete (marker : Node) (content : List Node) : Node :=
  { marker with
    children := Node.mergeText content
    data := (marker.data.erase "open").erase "block" }

/-- Siblings being folded: the open markers, innermost first, each with the siblings before it, and
the siblings after the last of them; siblings come last first. -/
structure Folding where
  opened : List (Node × List Node) := []
  out : List Node := []

namespace Folding

/-- Takes a sibling in. -/
def push (f : Folding) (n : Node) : Except Failure Folding :=
  if isOpenMarker n then .ok ⟨(n, f.out) :: f.opened, []⟩
  else if isCloseMarker n then
    match f.opened with
    | (marker, before) :: outer =>
      if marker.tag == n.tag then .ok ⟨outer, complete marker f.out.reverse :: before⟩
      else (literalOf n).map fun t ↦ { f with out := t :: f.out }
    | [] => (literalOf n).map fun t ↦ { f with out := t :: f.out }
  else .ok { f with out := n :: f.out }

/-- Makes literal text of the markers left open, innermost first; `out` are the siblings after
them, last first. -/
def flatten (out : List Node) : List (Node × List Node) → Except Failure (List Node)
  | [] => .ok out
  | (marker, before) :: outer => do
    let text ← literalOf marker
    flatten (out ++ text :: before) outer

def finish (f : Folding) : Except Failure (List Node) :=
  (flatten f.out f.opened).map fun out ↦ Node.mergeText out.reverse

end Folding

mutual

def foldBelow : Node → Except Failure Node
  | ⟨kind, tag, attrs, children, value, data⟩ => do
    let nodes ← foldFrom {} children
    return ⟨kind, tag, attrs, nodes, value, data⟩

/-- Folds siblings and what is below them. -/
def foldFrom (f : Folding) : List Node → Except Failure (List Node)
  | [] => f.finish
  | n :: rest => do
    let m ← foldBelow n
    foldFrom (← f.push m) rest

end

def fold (siblings : List Node) : Except Failure (List Node) :=
  foldFrom {} siblings

/-- What follows a tag in its piece of markup. -/
def tail (blocks : String → Logged (List Node)) (rest : List Char) (block : Bool) :
    Logged (List Node) :=
  if (Text.trim rest).isEmpty then pure []
  else if block then blocks (String.ofList rest)
  else pure [Node.ofText (String.ofList rest)]

/-- The content of a component that closes in its own piece of markup. -/
def content (blocks : String → Logged (List Node)) (inner : List Char) (block : Bool) :
    Logged (List Node) :=
  if block then blocks (String.ofList inner)
  else pure (Node.mergeText [Node.ofText (String.ofList inner)])

def opened (blocks : String → Logged (List Node)) (tag : OpenTag) (rest : List Char)
    (block : Bool) : Logged (List Node) := do
  let data := [("source", Value.str tag.source)]
  if tag.selfClosing then
    return Node.component tag.name tag.attrs [] data :: (← tail blocks rest block)
  else
    match beforeCloseTag? tag.name rest with
    | some inner =>
      let children ← content blocks inner block
      return [Node.component tag.name tag.attrs children data]
    | none =>
      return openMarker tag.name tag.attrs tag.source block :: (← tail blocks rest block)

/-- The nodes of a piece of raw markup, given how a document inside of it is read. -/
def ofMarkup (blocks : String → Logged (List Node)) (src : String) (block : Bool) :
    Logged (List Node) := do
  let stripped := Text.trim src.toList
  if !looksLikeTag stripped then return [Node.ofMarkup src]
  match readOpenTag? stripped with
  | some (tag, rest) => opened blocks tag rest block
  | none =>
    let unread : Logged (List Node) := do
      Logged.debug .markdown
        ("Unparseable component syntax kept as text: " ++ String.ofList (stripped.take 40))
      return [literal (some (if block then String.ofList stripped else src)) block]
    match readCloseTag? stripped with
    | some (name, rest) =>
      if (Text.trim rest).isEmpty then return [closeMarker name (String.ofList stripped) block]
      else unread
    | none => unread

end SafeMarkdown.Component
