import SafeMarkdown.Markdown.Line

/-!
# Raw markup

Markup inside of a line is a tag, a comment, an instruction, a declaration or a section of character
data. Markup that is a block of its own is known by how its first line starts, which also says where
it ends.
-/

namespace SafeMarkdown.Markdown

def isTagChar (c : Char) : Bool :=
  c.isAlphanum || c == '-'

def isAttributeStart (c : Char) : Bool :=
  c.isAlpha || c == '_' || c == ':'

def isAttributeChar (c : Char) : Bool :=
  isAttributeStart c || c.isDigit || c == '.' || c == '-'

def isBareValueChar (c : Char) : Bool :=
  0x20 < c.toNat && !"\"'=<>`".toList.contains c

def afterTagName? (s : List Char) : Option (List Char) :=
  match s with
  | c :: rest => if c.isAlpha then some (rest.dropWhile isTagChar) else none
  | [] => none

/-- What follows the value of an attribute. -/
def afterValue? (s : List Char) : Option (List Char) :=
  match s with
  | c :: rest =>
    if c == '"' || c == '\'' then
      match rest.dropWhile (· != c) with
      | _ :: after => some after
      | [] => none
    else if isBareValueChar c then some (rest.dropWhile isBareValueChar)
    else none
  | [] => none

/-- What follows an attribute with the blanks before it. -/
def afterAttribute? (s : List Char) : Option (List Char) :=
  match s.dropWhile Text.isBlank with
  | c :: rest =>
    if isAttributeStart c && !(s.takeWhile Text.isBlank).isEmpty then
      let after := rest.dropWhile isAttributeChar
      match after.dropWhile Text.isBlank with
      | '=' :: value =>
        match afterValue? (value.dropWhile Text.isBlank) with
        | some behind => some behind
        | none => some after
      | _ => some after
    else none
  | [] => none

/-- What follows attributes, at most so many. -/
def afterAttributes : Nat → List Char → List Char
  | 0, s => s
  | fuel + 1, s =>
    match afterAttribute? s with
    | some after => afterAttributes fuel after
    | none => s

/-- What follows a tag that opens an element, after its angle bracket. -/
def afterOpenTag? (s : List Char) : Option (List Char) := do
  let named ← afterTagName? s
  match (afterAttributes s.length named).dropWhile Text.isBlank with
  | '>' :: after => some after
  | '/' :: '>' :: after => some after
  | _ => none

def afterCloseTag? (s : List Char) : Option (List Char) := do
  let named ← afterTagName? s
  match named.dropWhile Text.isBlank with
  | '>' :: after => some after
  | _ => none

def afterTag? (s : List Char) : Option (List Char) :=
  match s with
  | '<' :: '/' :: rest => afterCloseTag? rest
  | '<' :: rest => afterOpenTag? rest
  | _ => none

/-- What follows a comment, after its opening; a hyphen goes with the characters behind it. -/
def afterComment? : List Char → Option (List Char)
  | '-' :: '-' :: '>' :: after => some after
  | '-' :: '-' :: _ :: rest => afterComment? rest
  | ['-', '-'] => none
  | '-' :: _ :: rest => afterComment? rest
  | ['-'] => none
  | _ :: rest => afterComment? rest
  | [] => none

/-- What follows the first place where a text occurs. -/
def afterFirst? (mark : List Char) : List Char → Option (List Char)
  | [] => if mark.isEmpty then some [] else none
  | c :: rest =>
    if mark.isPrefixOf (c :: rest) then some ((c :: rest).drop mark.length)
    else afterFirst? mark rest

def occurs (mark : String) (s : List Char) : Bool :=
  (afterFirst? mark.toList s).isSome

/-- What follows the markup that a text starts with. -/
def afterMarkup? (s : List Char) : Option (List Char) :=
  match s with
  | '<' :: '!' :: '-' :: '-' :: '>' :: after => some after
  | '<' :: '!' :: '-' :: '-' :: '-' :: '>' :: after => some after
  | '<' :: '!' :: '-' :: '-' :: rest => afterComment? rest
  | '<' :: '?' :: rest => afterFirst? ['?', '>'] rest
  | '<' :: '!' :: '[' :: rest =>
    if "CDATA[".toList.isPrefixOf rest then afterFirst? [']', ']', '>'] (rest.drop 6) else none
  | '<' :: '!' :: c :: rest => if c.isAlpha then afterFirst? ['>'] rest else none
  | _ => afterTag? s

def blockNames : List String := [
  "address", "article", "aside", "base", "basefont", "blockquote", "body", "caption", "center",
  "col", "colgroup", "dd", "details", "dialog", "dir", "div", "dl", "dt", "fieldset", "figcaption",
  "figure", "footer", "form", "frame", "frameset", "h1", "h2", "h3", "h4", "h5", "h6", "head",
  "header", "hr", "html", "iframe", "legend", "li", "link", "main", "menu", "menuitem", "nav",
  "noframes", "ol", "optgroup", "option", "p", "param", "search", "section", "summary", "table",
  "tbody", "td", "tfoot", "th", "thead", "title", "tr", "track", "ul"]

def textNames : List String := ["script", "pre", "style", "textarea"]

inductive MarkupBlock where
  | text
  | comment
  | instruction
  | declaration
  | characterData
  | element
  | tag
  deriving DecidableEq

namespace MarkupBlock

/-- Whether a text is a name and then something by which a tag goes on or ends. -/
def startsWithName (names : List String) (emptyTag : Bool) (s : List Char) : Bool :=
  let lowered := s.map Char.toLower
  names.any fun name ↦
    name.toList.isPrefixOf lowered &&
      match s.drop name.length with
      | [] => true
      | '/' :: '>' :: _ => emptyTag
      | c :: _ => Text.isBlank c || c == '>'

/-- Whether a line is one tag and nothing else. -/
def isLoneTag (s : List Char) : Bool :=
  match afterTag? s with
  | some after => after.all Text.isBlank
  | none => false

def ofLine? (s : List Char) : Option MarkupBlock :=
  match s with
  | '<' :: rest =>
    let afterSlash := match rest with
      | '/' :: r => r
      | r => r
    if startsWithName textNames false rest then some text
    else if "!--".toList.isPrefixOf rest then some comment
    else if rest.head? == some '?' then some instruction
    else if rest.head? == some '!' && ((rest.drop 1).head?.map Char.isUpper).getD false then
      some declaration
    else if "![CDATA[".toList.isPrefixOf rest then some characterData
    else if startsWithName blockNames true afterSlash then some element
    else if isLoneTag s then some tag
    else none
  | _ => none

def interrupts (k : MarkupBlock) : Bool :=
  k != tag

def endsWith (k : MarkupBlock) (line : List Char) : Bool :=
  match k with
  | text =>
    let lowered := line.map Char.toLower
    textNames.any fun name ↦ occurs ("</" ++ name ++ ">") lowered
  | comment => occurs "-->" line
  | instruction => occurs "?>" line
  | declaration => occurs ">" line
  | characterData => occurs "]]>" line
  | element | tag => line.isEmpty

end MarkupBlock

end SafeMarkdown.Markdown
