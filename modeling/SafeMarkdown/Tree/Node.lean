import SafeMarkdown.Failure
import SafeMarkdown.Value

/-!
# Render trees

A node is of one of five kinds and may carry a tag, attributes, children, a text and further data,
whatever its kind: trees from outside are taken as they are. The kind decides what counts. A text
node stands for its text, raw markup waits to be resolved, a component is left to whoever shows the
tree, and an element is named by its tag.
-/

namespace SafeMarkdown

inductive NodeKind where
  | root
  | element
  | text
  | raw
  | component
  deriving DecidableEq, Repr, Inhabited

/-- A node of a render tree. -/
structure Node where
  kind : NodeKind
  tag : Option String := none
  attrs : Fields := []
  children : List Node := []
  value : Option String := none
  data : Fields := []
  deriving Inhabited

namespace NodeKind

def name : NodeKind → String
  | root => "root"
  | element => "element"
  | text => "text"
  | raw => "raw"
  | component => "component"

def ofName? (s : String) : Option NodeKind :=
  [root, element, text, raw, component].find? fun k ↦ k.name == s

end NodeKind

namespace Node

def root (children : List Node) : Node :=
  { kind := .root, children }

def ofText (s : String) : Node :=
  { kind := .text, value := some s }

def ofMarkup (s : String) : Node :=
  { kind := .raw, value := some s }

def element (tag : String) (attrs : Fields) (children : List Node) (data : Fields := []) : Node :=
  { kind := .element, tag := some tag, attrs, children, data }

def component (name : String) (attrs : Fields) (children : List Node) (data : Fields) : Node :=
  { kind := .component, tag := some name, attrs, children, data }

def isText (n : Node) : Bool :=
  n.kind == .text

def isRaw (n : Node) : Bool :=
  n.kind == .raw

def isElement (n : Node) (tags : List String) : Bool :=
  n.kind == .element && n.tag.any tags.contains

def text (n : Node) : String :=
  n.value.getD ""

def tagName (n : Node) : String :=
  n.tag.getD ""

def flagged (n : Node) (name : String) : Bool :=
  (n.data.get? name).any Value.isTruthy

/-- A node and all nodes below it, in document order. -/
def walk : Node → List Node
  | ⟨kind, tag, attrs, children, value, data⟩ =>
    ⟨kind, tag, attrs, children, value, data⟩ :: walkAll children
where
  walkAll : List Node → List Node
    | [] => []
    | n :: rest => walk n ++ walkAll rest

/-- The text of a tree: that of its text nodes, in document order. Raw markup is no text, and what
lies below a text node does not count. -/
def textContent : Node → String
  | ⟨kind, _, _, children, value, _⟩ =>
    if kind == .text then value.getD "" else textOfAll children
where
  textOfAll : List Node → String
    | [] => ""
    | n :: rest => textContent n ++ textOfAll rest

def headingLevel (n : Node) : Option Nat :=
  if n.kind == .element then
    match n.tag with
    | some "h1" => some 1
    | some "h2" => some 2
    | some "h3" => some 3
    | some "h4" => some 4
    | some "h5" => some 5
    | some "h6" => some 6
    | _ => none
  else none

/-- The classes of a node. Its class attribute is a text of words, a list, or an object whose names
are the classes. -/
def classes (n : Node) : Except Failure (List Value) :=
  match n.attrs.get? "class" with
  | none => .ok []
  | some v =>
    if v.isTruthy then
      match v with
      | .str s => .ok ((Text.wordsOf s).map .str)
      | .arr items => .ok items
      | .obj fields => .ok (fields.map fun f ↦ .str f.1)
      | _ => .error (.wrongShape "the class attribute is no collection")
    else .ok []

def hasClass (classes : List Value) (name : String) : Bool :=
  classes.any fun v ↦ v.str? == some name

/-- Adds those of the classes that the node does not have; the class attribute becomes a list. -/
def addClasses (n : Node) (names : List String) : Except Failure Node := do
  let classes ← n.classes
  let fresh := names.filter fun name ↦ !hasClass classes name
  return { n with attrs := n.attrs.set "class" (.arr (classes ++ fresh.map .str)) }

/-- Joins neighbouring text nodes and drops the empty ones. A text node that is joined to none is
kept as it is. -/
def mergeText : List Node → List Node
  | [] => []
  | n :: rest =>
    if n.isText then
      if n.text.isEmpty then mergeText rest
      else
        match mergeText rest with
        | [] => [n]
        | m :: more => if m.isText then ofText (n.text ++ m.text) :: more else n :: m :: more
    else n :: mergeText rest

end Node

end SafeMarkdown
