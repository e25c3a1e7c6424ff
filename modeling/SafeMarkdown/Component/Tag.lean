import SafeMarkdown.Json.Parser
import SafeMarkdown.Text.Alphanumeric
import SafeMarkdown.Text.Blank

/-!
# Component tags

A component is named by a word with a capital letter. Its tag may have attributes: a bare name, which
is true, a text in either kind of quotes, or an expression in braces, inside which braces come in
pairs that do not nest. An expression that is JSON is its value, and any other is its text.
-/

namespace SafeMarkdown.Component

def isCapital (c : Char) : Bool :=
  'A' ≤ c && c ≤ 'Z'

/-- Whether a character may follow the first one of a component's name. -/
def isNameChar (c : Char) : Bool :=
  c.isAlphanum || c == '_' || c == '.'

/-- The name of a component at the start of a text, and what follows it. -/
def readName? (s : List Char) : Option (List Char × List Char) :=
  match s with
  | c :: rest =>
    if isCapital c then some (c :: rest.takeWhile isNameChar, rest.dropWhile isNameChar) else none
  | [] => none

def isAttributeStart (c : Char) : Bool :=
  c.isAlpha || c == '_' || c == ':'

/-- Whether a character may be a later one of an attribute's name. -/
def isAttributeChar (c : Char) : Bool :=
  Text.isWordChar c || c == ':' || c == '.' || c == '-'

inductive AttributeSource where
  | flag
  | text (s : List Char)
  | expression (s : List Char)
  deriving DecidableEq

/-- The text up to a quotation mark, and what follows the mark. -/
def readQuoted? (quote : Char) (s : List Char) : Option (List Char × List Char) :=
  match s.dropWhile (· != quote) with
  | _ :: after => some (s.takeWhile (· != quote), after)
  | [] => none

def isBrace (c : Char) : Bool :=
  c == '\x7b' || c == '\x7d'

/-- The length of an expression before its closing brace; `inner` tells whether a brace is open
inside of it. -/
def expressionLength? (inner : Bool) : List Char → Option Nat
  | [] => none
  | c :: rest =>
    if c == '\x7b' then if inner then none else (expressionLength? true rest).map (· + 1)
    else if c == '\x7d' then
      if inner then (expressionLength? false rest).map (· + 1) else some 0
    else (expressionLength? inner rest).map (· + 1)

/-- The value after an attribute's name: an equals sign, with white space around it, and a quoted
text or an expression. -/
def readValue? (s : List Char) : Option (AttributeSource × List Char) :=
  match s.dropWhile Text.isBlank with
  | '=' :: rest =>
    match rest.dropWhile Text.isBlank with
    | '"' :: more => (readQuoted? '"' more).map fun (t, after) ↦ (.text t, after)
    | '\'' :: more => (readQuoted? '\'' more).map fun (t, after) ↦ (.text t, after)
    | '\x7b' :: more =>
      (expressionLength? false more).map fun n ↦ (.expression (more.take n), more.drop (n + 1))
    | _ => none
  | _ => none

/-- An attribute with its name, as it is written. -/
structure Attribute where
  name : List Char
  source : AttributeSource
  deriving DecidableEq

/-- The attribute at the start of a text, and what follows it. -/
def readAttribute? (s : List Char) : Option (Attribute × List Char) :=
  match s with
  | c :: rest =>
    if isAttributeStart c then
      let name := c :: rest.takeWhile isAttributeChar
      let after := rest.dropWhile isAttributeChar
      match readValue? after with
      | some (source, more) => some (⟨name, source⟩, more)
      | none => some (⟨name, .flag⟩, after)
    else none
  | [] => none

/-- The attributes in a text, wherever they stand, in so many steps. -/
def attributesIn : Nat → List Char → List Attribute
  | 0, _ => []
  | _, [] => []
  | fuel + 1, c :: rest =>
    match readAttribute? (c :: rest) with
    | some (a, after) => a :: attributesIn fuel after
    | none => attributesIn fuel rest

def expressionValue (s : List Char) : Value :=
  match Json.parse? s with
  | some v => v
  | none => .str (String.ofList (Text.trim s))

def AttributeSource.value : AttributeSource → Value
  | flag => .bool true
  | text s => .str (String.ofList s)
  | expression s => expressionValue s

/-- The values of attributes by name; a repeated name keeps its first place and its last value. -/
def fieldsOf (attrs : List Attribute) : Fields :=
  Fields.ofList (attrs.map fun a ↦ (String.ofList a.name, a.source.value))

def parseAttributes (s : List Char) : Fields :=
  fieldsOf (attributesIn s.length s)

/-- The attributes of a tag after white space each, and what follows them, in so many steps. -/
def tagAttributes : Nat → List Char → List Attribute × List Char
  | 0, s => ([], s)
  | fuel + 1, s =>
    let t := s.dropWhile Text.isBlank
    if t.length = s.length then ([], s)
    else
      match readAttribute? t with
      | some (a, after) =>
        let (more, rest) := tagAttributes fuel after
        (a :: more, rest)
      | none => ([], s)

/-- The tag that opens a component, or all of a component without content. -/
structure OpenTag where
  name : String
  attrs : Fields
  selfClosing : Bool
  source : String

/-- The opening tag at the start of a text, and what follows it. -/
def readOpenTag? (s : List Char) : Option (OpenTag × List Char) :=
  match s with
  | '<' :: rest => do
    let (name, afterName) ← readName? rest
    let (attrs, afterAttrs) := tagAttributes afterName.length afterName
    let t := afterAttrs.dropWhile Text.isBlank
    let selfClosing := t.head? == some '/'
    let closing := if selfClosing then t.drop 1 else t
    match closing with
    | '>' :: after =>
      let source := s.take (s.length - after.length)
      some (⟨String.ofList name, fieldsOf attrs, selfClosing, String.ofList source⟩, after)
    | _ => none
  | _ => none

/-- The name in the closing tag at the start of a text, and what follows the tag. -/
def readCloseTag? (s : List Char) : Option (String × List Char) :=
  match s with
  | '<' :: '/' :: rest => do
    let (name, afterName) ← readName? rest
    match afterName.dropWhile Text.isBlank with
    | '>' :: after => some (String.ofList name, after)
    | _ => none
  | _ => none

/-- Whether a text starts as the tag of a component does. -/
def looksLikeTag (s : List Char) : Bool :=
  match s with
  | '<' :: '/' :: c :: _ => isCapital c
  | '<' :: c :: _ => isCapital c
  | _ => false

/-- What precedes the closing tag of a component that ends a text. -/
def beforeCloseTag? (name : String) (s : List Char) : Option (List Char) :=
  match (Text.trimEnd s).reverse with
  | '>' :: rest =>
    let written := (rest.dropWhile Text.isBlank).reverse
    let tag := "</".toList ++ name.toList
    if tag.isSuffixOf written then some (written.take (written.length - tag.length)) else none
  | _ => none

end SafeMarkdown.Component
