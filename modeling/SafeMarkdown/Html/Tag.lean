import SafeMarkdown.Html.Entity
import SafeMarkdown.Text.LetterCase

/-!
# Start tags

A start tag is read as browsers of old did: a name, then attributes parted by white space or
slashes, each with an optional value that is quoted or runs up to white space or the closing
bracket. A quote that is never closed is no quote. A tag that the input ends in is incomplete, and
one that breaks off at a character that can stand nowhere in it is no tag.
-/

namespace SafeMarkdown.Html

def isLetter (c : Char) : Bool :=
  c.isAlpha

/-- Whether a character may be part of a tag's name after its first letter. -/
def isTagNameChar (c : Char) : Bool :=
  !(c == '\t' || c == '\n' || c == '\r' || c.toNat == 12 || c == ' ' || c == '/' || c == '>' ||
    c.toNat == 0)

/-- A place inside a tag: the character before it and what follows it. -/
structure Place where
  before : Char
  rest : List Char

/-- The place after white space and after slashes that do not close the tag. -/
def skipSeparators (before : Char) : List Char → Place
  | [] => ⟨before, []⟩
  | c :: rest =>
    if Text.isBlank c || (c == '/' && rest.head? != some '>') then skipSeparators c rest
    else ⟨before, c :: rest⟩

def startsAttribute (before : Char) : Bool :=
  before == '\'' || before == '"' || before == '/' || Text.isBlank before

def isAttributeStart (c : Char) : Bool :=
  !(Text.isBlank c || c == '/' || c == '>')

/-- Whether a character may be a later one of an attribute's name. -/
def isAttributeChar (c : Char) : Bool :=
  isAttributeStart c && c != '='

def isBareChar (c : Char) : Bool :=
  !(Text.isBlank c || c == '>')

/-- The last character of a text, or another one when it is empty. -/
def lastOr (before : Char) (s : List Char) : Char :=
  s.getLast?.getD before

def bareValue (before : Char) (s : List Char) : List Char × Place :=
  let value := s.takeWhile isBareChar
  (value, ⟨lastOr before value, s.dropWhile isBareChar⟩)

/-- The value after an attribute's name, with its references resolved: white space, equals signs,
white space and the value itself. After an unclosed quote the value is empty if white space stands
before the quote, the last of several equals signs starts a value without quotes, and otherwise
there is no value. -/
def attributeValue? (s : List Char) : Option (List Char × Place) :=
  let t := s.dropWhile Text.isBlank
  let signs := t.takeWhile (· == '=')
  let afterSigns := t.dropWhile (· == '=')
  let space := afterSigns.takeWhile Text.isBlank
  let body := afterSigns.dropWhile Text.isBlank
  if signs.isEmpty then none
  else
    let bare := bareValue (lastOr '=' space) body
    match body with
    | q :: inner =>
      if q == '\'' || q == '"' then
        let value := inner.takeWhile (· != q)
        match inner.dropWhile (· != q) with
        | _ :: after => some (unescape value, ⟨q, after⟩)
        | [] =>
          if !space.isEmpty then some ([], ⟨'=', afterSigns⟩)
          else if 1 < signs.length then
            let (value, place) := bareValue '=' ('=' :: body)
            some (unescape value, place)
          else none
      else some (unescape bare.1, bare.2)
    | [] => some ([], bare.2)

/-- The attributes from a place on, with lowercase names, in so many steps; a name without a value
has the empty one. -/
def readAttributes : Nat → Place → List (List Char × List Char) × Place
  | 0, p => ([], p)
  | fuel + 1, p =>
    match p.rest with
    | c :: rest =>
      if startsAttribute p.before && isAttributeStart c then
        let name := c :: rest.takeWhile isAttributeChar
        let afterName := rest.dropWhile isAttributeChar
        let (value, place) :=
          (attributeValue? afterName).getD ([], ⟨lastOr c name, afterName⟩)
        let (more, final) := readAttributes fuel (skipSeparators place.before place.rest)
        ((Text.lower name, value) :: more, final)
      else ([], p)
    | [] => ([], p)

/-- Attributes by name: a repeated name keeps its first place and its last value. -/
def distinctAttributes (attrs : List (List Char × List Char)) : List (String × String) :=
  attrs.foldl (fun acc a ↦ put acc (String.ofList a.1) (String.ofList a.2)) []
where
  /-- Sets an attribute. -/
  put : List (String × String) → String → String → List (String × String)
    | [], name, value => [(name, value)]
    | (n, v) :: rest, name, value =>
      if n == name then (n, value) :: rest else (n, v) :: put rest name value

/-- What `<` and a letter turn out to start. -/
inductive TagReading where
  /-- A start tag, and what follows it. -/
  | tag (name : String) (attrs : List (String × String)) (selfClosing : Bool) (after : List Char)
  /-- No tag: text up to where it breaks off. -/
  | broken (after : List Char)
  /-- A tag that the input ends in. -/
  | incomplete

def readTag (s : List Char) : TagReading :=
  let name := s.takeWhile isTagNameChar
  let start := skipSeparators (lastOr '<' name) (s.dropWhile isTagNameChar)
  let (attrs, final) := readAttributes s.length start
  let tagName := String.ofList (Text.lower name)
  match final.rest with
  | [] => .incomplete
  | '>' :: after => .tag tagName (distinctAttributes attrs) false after
  | '/' :: '>' :: after => .tag tagName (distinctAttributes attrs) true after
  | c :: rest => if isLetter c || c == '=' || c == '/' then .incomplete else .broken (c :: rest)

end SafeMarkdown.Html
