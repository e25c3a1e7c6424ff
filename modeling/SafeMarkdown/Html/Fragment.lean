import SafeMarkdown.Html.Token

/-!
# HTML fragments

The tree that the tokens of a fragment form. No end tag is implied: an element stays open until an
end tag of its name comes, which closes all that is open inside it, or until the fragment ends. End
tags of nothing open are passed over. Void elements and self-closing ones close at once. A run of
text that is only ASCII white space shrinks to one line feed or one space, except inside
preformatted elements.
-/

namespace SafeMarkdown.Html

/-- An item of an HTML fragment. -/
inductive Item where
  | element (name : String) (attrs : List (String × String)) (children : List Item)
  | text (s : String)
  | markup
  deriving Inhabited

/-- Elements that have no content. -/
def isVoid (name : String) : Bool :=
  ["area", "base", "br", "col", "embed", "hr", "img", "input", "keygen", "link", "menuitem", "meta",
    "param", "source", "track", "wbr", "basefont", "bgsound", "command", "frame", "image",
    "isindex", "nextid", "spacer"].contains name

def isPreformatted (name : String) : Bool :=
  name == "pre" || name == "textarea"

/-- An element that is still open, with the items it holds so far, last first. -/
structure OpenElement where
  name : String
  attrs : List (String × String)
  content : List Item

/-- The state of building: open elements, innermost first; items outside of them, last first; the
text since the last item, last piece first; and the void elements whose end tag may still come. -/
structure Builder where
  opened : List OpenElement := []
  outside : List Item := []
  pending : List (List Char) := []
  voids : List String := []

namespace Builder

/-- Adds an item to the innermost open element. -/
def add (b : Builder) (item : Item) : Builder :=
  match b.opened with
  | [] => { b with outside := item :: b.outside }
  | e :: rest => { b with opened := { e with content := item :: e.content } :: rest }

def shrinks (b : Builder) : Bool :=
  !b.opened.any fun e ↦ isPreformatted e.name

def isAsciiBlank (c : Char) : Bool :=
  c == ' ' || c == '\n' || c == '\t' || c.toNat == 12 || c == '\r'

def keptText (b : Builder) (s : List Char) : List Char :=
  if b.shrinks && s.all isAsciiBlank then if s.contains '\n' then ['\n'] else [' ']
  else s

/-- Makes an item of the text since the last one. -/
def flush (b : Builder) : Builder :=
  if b.pending.isEmpty then b
  else
    let s := b.keptText b.pending.reverse.flatten
    { b with pending := [] }.add (.text (String.ofList s))

def OpenElement.close (e : OpenElement) : Item :=
  .element e.name e.attrs e.content.reverse

/-- Closes so many open elements, innermost first. -/
def closeMany : Nat → Builder → Builder
  | 0, b => b
  | n + 1, b =>
    match b.opened with
    | [] => b
    | e :: rest => closeMany n ({ b with opened := rest }.add (OpenElement.close e))

/-- Closes the innermost open element of a name and all that is open inside it. -/
def closeName (b : Builder) (name : String) : Builder :=
  match b.opened.findIdx? fun e ↦ e.name == name with
  | none => b
  | some i => closeMany (i + 1) b

def push (b : Builder) : Token → Builder
  | .text s => { b with pending := s :: b.pending }
  | .markup => b.flush.add .markup
  | .startTag name attrs selfClosing =>
    let b := b.flush
    if selfClosing then b.add (.element name attrs [])
    else if isVoid name then { b.add (.element name attrs []) with voids := name :: b.voids }
    else { b with opened := ⟨name, attrs, []⟩ :: b.opened }
  | .endTag name =>
    if b.voids.contains name then { b with voids := b.voids.erase name }
    else b.flush.closeName name

def finish (b : Builder) : List Item :=
  let b := b.flush
  (closeMany b.opened.length b).outside.reverse

end Builder

def parseFragment (s : List Char) : Except Failure (List Item) :=
  (tokens s).map fun ts ↦ (ts.foldl Builder.push {}).finish

end SafeMarkdown.Html
