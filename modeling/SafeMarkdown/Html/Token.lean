import SafeMarkdown.Failure
import SafeMarkdown.Html.Tag

/-!
# HTML tokens

A text is cut into tags, running text and items that are markup only: comments, declarations and
processing instructions. The content of a script or a style is plain text up to its end tag, and is
lost without one. Whatever the input breaks off in becomes text. A marked section of an unknown
kind makes the whole text unreadable.

The text is read in two rounds: the second starts where the first meets something unfinished. They
differ at a malformed numeric reference, after which the second round takes all that follows for
text.
-/

namespace SafeMarkdown.Html

/-- A piece of an HTML text. -/
inductive Token where
  | startTag (name : String) (attrs : List (String × String)) (selfClosing : Bool)
  | endTag (name : String)
  | text (s : List Char)
  | markup
  deriving Inhabited

def rejected : Failure :=
  .foreign "ParserRejectedMarkup" "The markup you provided was rejected by the parser"

def isRawText (name : String) : Bool :=
  name == "script" || name == "style"

/-- What follows the first place at which a text continues with what `test` accepts, and what stands
before that place. -/
def splitBefore (test : List Char → Option (List Char)) : List Char → Option (List Char × List Char)
  | [] => (test []).map ([], ·)
  | c :: rest =>
    match test (c :: rest) with
    | some after => some ([], after)
    | none => (splitBefore test rest).map fun (head, after) ↦ (c :: head, after)

/-- What follows a closing bracket that comes next after optional white space. -/
def closingBracket (s : List Char) : Option (List Char) :=
  match s.dropWhile Text.isBlank with
  | '>' :: after => some after
  | _ => none

def commentEnd : List Char → Option (List Char)
  | '-' :: '-' :: rest => closingBracket rest
  | _ => none

def sectionEnd : List Char → Option (List Char)
  | ']' :: rest => closingBracket rest
  | _ => none

/-- What follows the end of a marked section with two brackets. -/
def doubleSectionEnd : List Char → Option (List Char)
  | ']' :: rest =>
    match rest.dropWhile Text.isBlank with
    | ']' :: more => closingBracket more
    | _ => none
  | _ => none

/-- What follows the first closing bracket. -/
def afterBracket (s : List Char) : Option (List Char) :=
  match s.dropWhile (· != '>') with
  | _ :: after => some after
  | [] => none

/-- What follows a word, whatever the case of its ASCII letters. -/
def afterWordAnyCase : List Char → List Char → Option (List Char)
  | [], s => some s
  | _ :: _, [] => none
  | w :: word, c :: rest => if c.toLower == w then afterWordAnyCase word rest else none

/-- What follows the end tag of a raw text element that comes next. -/
def rawTextEnd (name : String) : List Char → Option (List Char)
  | '<' :: '/' :: rest =>
    (afterWordAnyCase name.toList (rest.dropWhile Text.isBlank)).bind closingBracket
  | _ => none

/-- The outcome of reading an item that starts with an angle bracket: its token, if it has one, and
what follows it; or that the input ends in it; or that it makes the text unreadable. -/
inductive ItemReading where
  | item (token : Option Token) (after : List Char)
  | incomplete
  | unreadable

def markupUpTo (after? : Option (List Char)) : ItemReading :=
  match after? with
  | some after => .item (some .markup) after
  | none => .incomplete

def isEndNameChar (c : Char) : Bool :=
  c.isAlphanum || c == '-' || c == '.' || c == ':' || c == '_'

/-- The name of a well-formed end tag after its `</`, and what follows it. -/
def plainEndTag? (s : List Char) : Option (List Char × List Char) :=
  let t := s.dropWhile Text.isBlank
  match t with
  | c :: _ =>
    if isLetter c then
      (closingBracket (t.dropWhile isEndNameChar)).map fun after ↦
        (t.takeWhile isEndNameChar, after)
    else none
  | [] => none

/-- An end tag after its `</`. One that is not well-formed ends at the next bracket after its name;
without a name it is a comment, or nothing at all. -/
def readEndTag (s : List Char) : ItemReading :=
  match afterBracket s with
  | none => .incomplete
  | some afterFirst =>
    match plainEndTag? s with
    | some (name, after) => .item (some (.endTag (String.ofList (Text.lower name)))) after
    | none =>
      match s with
      | '>' :: after => .item none after
      | c :: _ =>
        if isLetter c then
          let name := s.takeWhile isTagNameChar
          let place := skipSeparators c (s.dropWhile isTagNameChar)
          .item (some (.endTag (String.ofList (Text.lower name))))
            ((afterBracket place.rest).getD [])
        else .item (some .markup) afterFirst
      | [] => .incomplete

def doubleSections : List String := ["temp", "cdata", "ignore", "include", "rcdata"]

def singleSections : List String := ["if", "else", "endif"]

/-- Whether a character may be part of the keyword of a marked section. -/
def isKeywordChar (c : Char) : Bool :=
  c.isAlphanum || c == '-' || c == '_' || c == '.'

/-- A marked section after its `<![`. -/
def readSection (s : List Char) : ItemReading :=
  match s with
  | [] => .incomplete
  | c :: _ =>
    if isLetter c then
      let keyword := String.ofList ((s.takeWhile isKeywordChar).map Char.toLower)
      if ((s.dropWhile isKeywordChar).dropWhile Text.isBlank).isEmpty then .incomplete
      else if doubleSections.contains keyword then
        markupUpTo ((splitBefore doubleSectionEnd s).map Prod.snd)
      else if singleSections.contains keyword then
        markupUpTo ((splitBefore sectionEnd s).map Prod.snd)
      else .unreadable
    else .unreadable

/-- An item after its angle bracket, other than a start tag: an end tag, a comment, a processing
instruction or a declaration. `none` when the bracket is text. -/
def readItem? (s : List Char) : Option ItemReading :=
  match s with
  | '/' :: rest => some (readEndTag rest)
  | '!' :: '-' :: '-' :: rest => some (markupUpTo ((splitBefore commentEnd rest).map Prod.snd))
  | '?' :: rest => some (markupUpTo (afterBracket rest))
  | '!' :: '[' :: rest => some (readSection rest)
  | '!' :: rest => some (markupUpTo (afterBracket rest))
  | _ => none

/-- The start of what follows an item that the input ends in, after its angle bracket: past the next
closing bracket, or at the next opening one, or right here. -/
def resume (s : List Char) : List Char :=
  match afterBracket s with
  | some after => after
  | none => if s.contains '<' then s.dropWhile (· != '<') else s

def upTo (s suffix : List Char) : List Char :=
  s.take (s.length - suffix.length)

def isReferenceChar (c : Char) : Bool :=
  c.isAlphanum || c == '-' || c == '.'

/-- A word that the input ends in, parted before its last hyphen or point. -/
def lastBreak? (word : List Char) : Option (List Char × List Char) :=
  let tail := (word.reverse.takeWhile Char.isAlphanum).reverse
  match (word.reverse.dropWhile Char.isAlphanum) with
  | mark :: name => some (name.reverse, mark :: tail)
  | [] => none

/-- The name of a reference in running text, after its ampersand, and what follows it. A name is
followed by a character that is neither letter nor digit; at the end of the input the last hyphen
or point of the name itself is that character. -/
def textName? (s : List Char) : Option (List Char × List Char) :=
  if s.head?.any isLetter then
    let word := s.takeWhile isReferenceChar
    match s.dropWhile isReferenceChar with
    | [] => lastBreak? word
    | after => some (word, after)
  else none

/-- The number of a reference in running text, after its `&#`, and what follows it. -/
def textNumber? (s : List Char) : Option (Nat × List Char) :=
  match numericBody s with
  | some (n, c :: after) => if isHexDigit c then none else some (n, c :: after)
  | _ => none

def namedText (name : List Char) : List Char :=
  match entity? name with
  | some c => [c]
  | none => '&' :: name

def isPlain (c : Char) : Bool :=
  c != '&' && c != '<'

/-- The tokens of a text in so many steps; `second` tells the round. -/
def tokenSteps : Nat → Bool → List Char → Except Failure (List Token)
  | 0, _, _ => .ok []
  | _, _, [] => .ok []
  | fuel + 1, second, '<' :: rest =>
    let unfinished : Unit → Except Failure (List Token) := fun _ ↦
      if second then
        let after := resume rest
        (tokenSteps fuel second after).map (.text ('<' :: upTo rest after) :: ·)
      else tokenSteps fuel true ('<' :: rest)
    if rest.head?.any isLetter then
      match readTag rest with
      | .tag name attrs selfClosing after =>
        let token := Token.startTag name attrs selfClosing
        if isRawText name && !selfClosing then
          match splitBefore (rawTextEnd name) after with
          | some (content, afterEnd) =>
            let inner := if content.isEmpty then [] else [Token.text content]
            (tokenSteps fuel second afterEnd).map fun ts ↦ token :: inner ++ .endTag name :: ts
          | none => .ok [token]
        else (tokenSteps fuel second after).map (token :: ·)
      | .broken after => (tokenSteps fuel second after).map (.text ('<' :: upTo rest after) :: ·)
      | .incomplete => unfinished ()
    else
      match readItem? rest with
      | some (.item (some token) after) => (tokenSteps fuel second after).map (token :: ·)
      | some (.item none after) => tokenSteps fuel second after
      | some .incomplete => unfinished ()
      | some .unreadable => .error rejected
      | none => (tokenSteps fuel second rest).map (.text ['<'] :: ·)
  | fuel + 1, second, '&' :: '#' :: rest =>
    match textNumber? rest with
    | some (n, after) =>
      (tokenSteps fuel second (dropSemicolon after)).map (.text [textNumber n] :: ·)
    | none =>
      if rest.contains ';' then
        if second then .ok [.text ['&', '#'], .text rest]
        else (tokenSteps fuel true rest).map (.text ['&', '#'] :: ·)
      else .ok [.text ('&' :: '#' :: rest)]
  | fuel + 1, second, '&' :: rest =>
    match textName? rest with
    | some (name, after) =>
      (tokenSteps fuel second (dropSemicolon after)).map (.text (namedText name) :: ·)
    | none =>
      match rest with
      | [] => .ok [.text ['&']]
      | [c] => if isLetter c then .ok [.text [c]]
        else (tokenSteps fuel second [c]).map (.text ['&'] :: ·)
      | c :: _ =>
        if isLetter c then .ok [.text ('&' :: rest)]
        else (tokenSteps fuel second rest).map (.text ['&'] :: ·)
  | fuel + 1, second, c :: rest =>
    let plain := rest.takeWhile isPlain
    (tokenSteps fuel second (rest.dropWhile isPlain)).map (.text (c :: plain) :: ·)

def tokens (s : List Char) : Except Failure (List Token) :=
  tokenSteps (2 * s.length + 2) false s

end SafeMarkdown.Html
