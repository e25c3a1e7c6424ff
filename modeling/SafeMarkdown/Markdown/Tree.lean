import SafeMarkdown.Component.Markup
import SafeMarkdown.Markdown.Token

/-!
# From tokens to trees

A container becomes an element around what it holds. The paragraphs of a tight list are containers
without an element, and the footnotes of a document are a list in a section of their own. Raw markup
is looked through for components.
-/

namespace SafeMarkdown.Markdown

/-- What an open container becomes. -/
inductive Container where
  | element (n : Node)
  /-- Nothing of its own: what it holds goes to the container around it. -/
  | transparent
  /-- The section of footnotes and the list in it. -/
  | footnotes

def Container.close (c : Container) (content : List Node) : List Node :=
  match c with
  | element n => [{ n with children := content }]
  | transparent => content
  | footnotes =>
    let list := Node.element "ol" [("class", .arr [.str "footnotes-list"])] content
    [Node.element "section" [("class", .arr [.str "footnotes"])] [list]]

/-- Tokens being converted: the open containers, innermost first, each with the nodes before it in
the container around it, and the nodes in the innermost one; nodes come last first. After one
closing token too many nothing more can be placed. -/
structure Building where
  opened : List (Container × List Node) := []
  out : List Node := []
  ended : Bool := false

namespace Building

def add (b : Building) (nodes : List Node) : Building :=
  { b with out := nodes.reverse ++ b.out }

def opening (b : Building) (c : Container) : Building :=
  { b with opened := (c, b.out) :: b.opened, out := [] }

/-- Closes the innermost container. -/
def closing (b : Building) : Building :=
  match b.opened with
  | [] => { b with ended := true }
  | (c, before) :: outer =>
    { b with opened := outer, out := (c.close b.out.reverse).reverse ++ before }

def unwind (out : List Node) : List (Container × List Node) → List Node
  | [] => out.reverse
  | (c, before) :: outer => unwind ((c.close out.reverse).reverse ++ before) outer

def nodes (b : Building) : List Node :=
  unwind b.out b.opened

end Building

/-- The longest word at the start of a text after white space, if there is one. -/
def leadingWord? (s : List Char) : Option (List Char) :=
  let word := (s.dropWhile Text.isBlank).takeWhile Text.isWordChar
  if word.isEmpty then none else some word

/-- The alignment that a style gives. -/
def alignmentIn : List Char → Option (List Char)
  | [] => none
  | c :: rest =>
    let mark := "text-align:".toList
    let here := if mark.isPrefixOf (c :: rest) then leadingWord? ((c :: rest).drop mark.length)
      else none
    here.or (alignmentIn rest)

def isCell (tag : String) : Bool :=
  tag == "th" || tag == "td"

/-- The attributes of a token's element: all are texts, classes are a list, and the style of a table
cell becomes its alignment. -/
def elementAttributes (tag : String) (attrs : Fields) : Fields :=
  attrs.foldl
    (fun acc (name, v) ↦
      if name == "style" && isCell tag then
        match alignmentIn v.display.toList with
        | some word => acc.set "align" (.str (String.ofList word))
        | none => acc
      else if name == "class" then
        acc.set "class" (.arr ((Text.wordsOf v.display).map .str))
      else acc.set name (.str v.display))
    []

/-- The number that a footnote shows, and the name that a reference to it goes by. -/
def footnoteLabel (data : Fields) : Except Failure (String × String) :=
  match data.get? "id" with
  | none => .error .missingKey
  | some (.int id) =>
    let n := Value.intText (id + 1)
    match data.get? "subId" with
    | none => .ok (n, n)
    | some (.int sub) => .ok (n, if 0 < sub then n ++ "-" ++ Value.intText sub else n)
    | some _ => .error (.wrongShape "the number of a reference is no integer")
  | some _ => .error (.wrongShape "the number of a footnote is no integer")

/-- The level that a heading's tag names. -/
def levelOf (tag : String) : Except Failure Int :=
  match tag.toList[1]? with
  | none => .error .missingItem
  | some c =>
    if c.isDigit then .ok (c.toNat - 48 : Nat)
    else .error (.unusable ("invalid literal for int() with base 10: " ++
      Text.quoted (String.ofList [c])))

def containerOf (t : Token) : Logged Container := do
  if t.type == "paragraph_open" && t.hidden then return .transparent
  if t.type == "footnote_block_open" then return .footnotes
  if t.type == "footnote_open" then
    let (n, _) ← Logged.ofExcept (footnoteLabel t.data)
    return .element (Node.element "li"
      [("id", .str ("fn-" ++ n)), ("class", .arr [.str "footnote-item"])] [])
  if t.tag.isEmpty then
    Logged.debug .markdown ("Container token " ++ t.type ++ " has no tag; using div")
  let tag := if t.tag.isEmpty then "div" else t.tag
  let node := Node.element tag (elementAttributes tag t.attrs) []
  if t.type == "heading_open" then
    let level ← Logged.ofExcept (levelOf tag)
    return .element { node with data := [("level", .int level)] }
  else return .element node

/-- The element of a code block. The first word of its info names the language, and the rest is kept
as it is. -/
def codeBlock (info content : String) : Node :=
  let text := Node.ofText content
  let info := Text.trim info.toList
  let lang := info.takeWhile (· != ' ')
  let rest := Text.trim ((info.dropWhile (· != ' ')).drop 1)
  let code :=
    if lang.isEmpty then Node.element "code" [] [text]
    else
      let name := String.ofList lang
      Node.element "code" [("class", .arr [.str ("language-" ++ name)])] [text]
        [("lang", .str name), ("meta", if rest.isEmpty then .null else .str (String.ofList rest))]
  Node.element "pre" [] [code]

def attributeText? (attrs : Fields) (name : String) : Option String :=
  match attrs.get? name with
  | some v => if v.isTruthy then some v.display else none
  | none => none

def image (attrs : Fields) (alt : String) : Node :=
  let title := match attributeText? attrs "title" with
    | some title => [("title", Value.str title)]
    | none => []
  Node.element "img"
    ([("src", .str ((attributeText? attrs "src").getD "")), ("alt", .str alt)] ++ title) []

def footnoteReference (n label : String) : Node :=
  let link := Node.element "a"
    [("href", .str ("#fn-" ++ n)), ("id", .str ("fnref-" ++ label))]
    [Node.ofText ("[" ++ n ++ "]")]
  Node.element "sup" [("class", .arr [.str "footnote-ref"])] [link]

def footnoteBacklink (label : String) : Node :=
  Node.element "a"
    [("href", .str ("#fnref-" ++ label)), ("class", .arr [.str "footnote-backref"])]
    [Node.ofText "↩"]

/-- The nodes of a token that stands by itself and holds no others. -/
def simpleNodes (blocks : String → Logged (List Node)) (t : Token) : Logged (List Node) :=
  match t.type with
  | "text" => pure [Node.ofText t.content]
  | "softbreak" => pure [Node.ofText "\n"]
  | "hardbreak" => pure [Node.element "br" [] []]
  | "code_inline" => pure [Node.element "code" [] [Node.ofText t.content]]
  | "fence" => pure [codeBlock t.info t.content]
  | "code_block" => pure [codeBlock "" t.content]
  | "html_block" => Component.ofMarkup blocks t.content true
  | "html_inline" => Component.ofMarkup blocks t.content false
  | "image" => pure [image t.attrs t.content]
  | "hr" => pure [Node.element "hr" [] []]
  | "footnote_ref" => do
    let (n, label) ← Logged.ofExcept (footnoteLabel t.data)
    return [footnoteReference n label]
  | "footnote_anchor" => do
    let (_, label) ← Logged.ofExcept (footnoteLabel t.data)
    return [Node.ofText " ", footnoteBacklink label]
  | _ => do
    if t.content.isEmpty then return []
    Logged.debug .markdown ("Keeping unhandled " ++ t.type ++ " token as text")
    return [Node.ofText t.content]

mutual

def leafNodes (blocks : String → Logged (List Node)) : Token → Logged (List Node)
  | ⟨type, nesting, tag, attrs, content, info, hidden, children, data⟩ =>
    if type == "inline" then do
      let b ← convertFrom blocks {} children
      return Node.mergeText b.nodes
    else simpleNodes blocks ⟨type, nesting, tag, attrs, content, info, hidden, children, data⟩

def convertFrom (blocks : String → Logged (List Node)) (b : Building) :
    List Token → Logged Building
  | [] => pure b
  | t :: rest => do
    if b.ended then throw .missingItem
    match t.nesting with
    | .opens => convertFrom blocks (b.opening (← containerOf t)) rest
    | .closes => convertFrom blocks b.closing rest
    | .single => convertFrom blocks (b.add (← leafNodes blocks t)) rest

end

/-- The nodes of tokens, given how a document inside of raw markup is read. -/
def convert (blocks : String → Logged (List Node)) (tokens : List Token) : Logged (List Node) := do
  let b ← convertFrom blocks {} tokens
  return b.nodes

end SafeMarkdown.Markdown
