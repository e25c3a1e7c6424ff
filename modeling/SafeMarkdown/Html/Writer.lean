import SafeMarkdown.Tree.Node

/-!
# Trees as HTML

Elements become tags, text is escaped, and raw markup, where any is left, passes as it is. The
characters that would open a tag or an entity are written as entities: ampersand and angle brackets
in running text, the two quotation marks as well inside an attribute. A component is shown by the
function that the caller registered under its name; one without is written as literal text around
its content, with a warning. Warnings come in the order in which the components end.
-/

namespace SafeMarkdown.Html

def escapeTextChar (c : Char) : List Char :=
  if c == '&' then "&amp;".toList
  else if c == '<' then "&lt;".toList
  else if c == '>' then "&gt;".toList
  else [c]

def escapeAttributeChar (c : Char) : List Char :=
  if c == '"' then "&quot;".toList
  else if c == '\'' then "&#x27;".toList
  else escapeTextChar c

def escapeText (s : String) : String :=
  String.ofList (s.toList.flatMap escapeTextChar)

def escapeAttribute (s : String) : String :=
  String.ofList (s.toList.flatMap escapeAttributeChar)

/-- What shows components: for a name, a function of the attributes and the inner markup. -/
abbrev Registry := List (String × (Fields → String → String))

def voidTags : List String :=
  ["area", "base", "br", "col", "embed", "hr", "img", "input", "link", "meta", "source", "track",
    "wbr"]

def attributeValue : Value → String
  | .arr items => " ".intercalate (items.map Value.display)
  | v => v.display

/-- One attribute of a tag: null and false are left out, true is a bare name. -/
def attributeText (name : String) : Value → String
  | .null => ""
  | .bool false => ""
  | .bool true => " " ++ name
  | v => " " ++ name ++ "=\"" ++ escapeAttribute (attributeValue v) ++ "\""

def attributesText (attrs : Fields) : String :=
  String.join (attrs.map fun f ↦ attributeText f.1 f.2)

def shownTag (tag : Option String) : String :=
  tag.getD "None"

/-- Markup together with the warnings issued on the way, which also stand when no markup comes
out. -/
abbrev Writing := ExceptT Failure (StateM (List String))

/-- The markup of a component that nothing shows. -/
def literalComponent (tag : Option String) (data : Fields) (inner : String) : Writing String := do
  modify fun ws ↦
    ws ++ ["Unknown component '" ++ shownTag tag ++ "' rendered as literal text"]
  let name := shownTag tag
  let source ← match data.get? "source" with
    | none => pure ("<" ++ name ++ ">")
    | some v =>
      if v.isTruthy then
        match v with
        | .str s => pure s
        | _ => throw .unsupported
      else pure ("<" ++ name ++ ">")
  let opened := escapeAttribute source ++ inner
  if "/>".toList.isSuffixOf (Text.trimEnd source.toList) then return opened
  else return opened ++ escapeAttribute ("</" ++ name ++ ">")

def componentText (registry : Registry) (tag : Option String) (attrs data : Fields)
    (inner : String) : Writing String :=
  match tag.bind fun name ↦ registry.lookup name with
  | some shown => pure (shown attrs inner)
  | none => literalComponent tag data inner

mutual

/-- The markup of a tree. -/
def write (registry : Registry) : Node → Writing String
  | ⟨.text, _, _, _, value, _⟩ => pure (escapeText (value.getD ""))
  | ⟨.raw, _, _, _, value, _⟩ => pure (value.getD "")
  | ⟨.root, _, _, children, _, _⟩ => writeAll registry children
  | ⟨.component, tag, attrs, children, _, data⟩ => do
    let inner ← writeAll registry children
    componentText registry tag attrs data inner
  | ⟨.element, tag, attrs, children, _, _⟩ => do
    let inner ← writeAll registry children
    let name := shownTag tag
    if tag.any voidTags.contains then return "<" ++ name ++ attributesText attrs ++ ">"
    else return "<" ++ name ++ attributesText attrs ++ ">" ++ inner ++ "</" ++ name ++ ">"

def writeAll (registry : Registry) : List Node → Writing String
  | [] => pure ""
  | n :: rest => do
    let first ← write registry n
    let others ← writeAll registry rest
    return first ++ others

end

def render (registry : Registry) (n : Node) : Except Failure String × List String :=
  (write registry n).run.run []

end SafeMarkdown.Html
