import SafeMarkdown.Markdown.Escape
import SafeMarkdown.Text.Blank
import SafeMarkdown.Text.LetterCase
import SafeMarkdown.Url.Parts

/-!
# Destinations and titles

A link leads to a destination and may have a title. A destination stands in angle brackets or is a
run of characters with balanced parentheses. Some schemes are refused. Definitions of references
are found by their labels, whatever the case of letters and the width of blanks.
-/

namespace SafeMarkdown.Markdown

/-- A destination after its opening angle bracket: what stands inside, and what follows. -/
def bracketed? : List Char → Option (List Char × List Char)
  | [] => none
  | '>' :: rest => some ([], rest)
  | '\\' :: c :: rest => (bracketed? rest).map fun (s, after) ↦ ('\\' :: c :: s, after)
  | c :: rest =>
    if c == '\n' || c == '<' then none
    else (bracketed? rest).map fun (s, after) ↦ (c :: s, after)

def endsDestination (c : Char) : Bool :=
  c.toNat ≤ 0x20 || c.toNat == 0x7f

/-- A bare destination inside so many parentheses: its characters, and what follows. -/
def bare? : Nat → List Char → Option (List Char × List Char)
  | depth, [] => if depth = 0 then some ([], []) else none
  | depth, '\\' :: c :: rest =>
    if c == ' ' then if depth = 0 then some ([], '\\' :: c :: rest) else none
    else (bare? depth rest).map fun (s, after) ↦ ('\\' :: c :: s, after)
  | depth, c :: rest =>
    if endsDestination c then if depth = 0 then some ([], c :: rest) else none
    else if c == '(' then
      if 32 ≤ depth then none
      else (bare? (depth + 1) rest).map fun (s, after) ↦ (c :: s, after)
    else if c == ')' then
      if depth = 0 then some ([], c :: rest)
      else (bare? (depth - 1) rest).map fun (s, after) ↦ (c :: s, after)
    else (bare? depth rest).map fun (s, after) ↦ (c :: s, after)

/-- The destination that a text starts with, and what follows it. -/
def destination? (s : List Char) : Option (List Char × List Char) :=
  match s with
  | '<' :: rest => (bracketed? rest).map fun (d, after) ↦ (unescape d, after)
  | _ =>
    match bare? 0 s with
    | some (d, after) => if d.isEmpty then none else some (unescape d, after)
    | none => none

def titleBody? (close : Char) : List Char → Option (List Char × List Char)
  | [] => none
  | '\\' :: c :: rest => (titleBody? close rest).map fun (s, after) ↦ ('\\' :: c :: s, after)
  | c :: rest =>
    if c == close then some ([], rest)
    else if c == '(' && close == ')' then none
    else (titleBody? close rest).map fun (s, after) ↦ (c :: s, after)

/-- The title that a text starts with, before its escapes are resolved, and what follows it. -/
def rawTitle? (s : List Char) : Option (List Char × List Char) :=
  match s with
  | '"' :: rest => titleBody? '"' rest
  | '\'' :: rest => titleBody? '\'' rest
  | '(' :: rest => titleBody? ')' rest
  | _ => none

def refusedSchemes : List String := ["vbscript:", "javascript:", "file:", "data:"]

def imageData : List String :=
  ["data:image/gif;", "data:image/png;", "data:image/jpeg;", "data:image/webp;"]

/-- Whether a link may lead to a destination. -/
def isAllowed (href : List Char) : Bool :=
  let s := Text.lower (Text.trim href)
  let starts (word : String) : Bool := word.toList.isPrefixOf s
  !refusedSchemes.any starts || imageData.any starts

/-- The destination of a link as it is written to an attribute, if a link may lead there. -/
def link? (destination : List Char) : Option (List Char) :=
  let href := Url.normalize destination
  if isAllowed href then some href else none

def labelKey (label : List Char) : List Char :=
  Text.upper (Text.lower ([' '].intercalate (Text.words label)))

/-- What a reference is defined to lead to. -/
structure Definition where
  label : List Char
  href : List Char
  title : List Char

def isGap (c : Char) : Bool :=
  Text.isSpaceOrTab c || c == '\n'

end SafeMarkdown.Markdown
