import SafeMarkdown.Html.Entity
import SafeMarkdown.Text.Punctuation

/-!
# Escapes

A backslash before a punctuation mark makes it plain text, and a character reference stands for the
character that it names. In destinations and titles both are resolved before anything else.
-/

namespace SafeMarkdown.Markdown

/-- Whether a number is a character that a reference may stand for. -/
def isReferable (n : Nat) : Bool :=
  Html.isCharacter n && n != 0 && !Html.isForbidden n

def isNameChar (c : Char) : Bool :=
  c.isAlphanum

/-- The digits of a numeric reference and their base, when a word that starts with a number sign is
one: at most so many decimal or hexadecimal digits. -/
def numberIn (decimal hexadecimal : Nat) (word : List Char) : Option Nat :=
  match word with
  | '#' :: x :: rest =>
    if x == 'x' || x == 'X' then
      if !rest.isEmpty && rest.length ≤ hexadecimal && rest.all Html.isHexDigit then
        some (Html.numberOf 16 rest)
      else none
    else if rest.length + 1 ≤ decimal && (x :: rest).all Html.isDigit then
      some (Html.numberOf 10 (x :: rest))
    else none
  | _ => none

/-- The word of a reference between its ampersand and its semicolon, and what follows it. -/
def referenceWord? (s : List Char) : Option (List Char × List Char) :=
  match s with
  | '&' :: c :: rest =>
    if c.isAlpha || c == '#' then
      let word := rest.takeWhile isNameChar
      match rest.drop word.length with
      | ';' :: after => some (c :: word, after)
      | _ => none
    else none
  | _ => none

/-- The reference that a text starts with: the character it stands for, and what follows it. A
number that no reference may have stands for the replacement character. -/
def readReference? (s : List Char) : Option (Char × List Char) := do
  let (word, after) ← referenceWord? s
  if word.head? == some '#' then
    let n ← numberIn 7 6 word
    return (if isReferable n then Char.ofNat n else Html.replacement, after)
  else
    return (← Html.entity? word, after)

/-- The reference that a destination or a title has at its start; a number that no reference may
have makes it none. -/
def readStrictReference? (s : List Char) : Option (Char × List Char) := do
  let (word, after) ← referenceWord? s
  if word.head? == some '#' then
    let n ← numberIn 8 8 word
    if isReferable n then return (Char.ofNat n, after) else none
  else
    return (← Html.entity? word, after)

/-- Resolves escapes and references, in so many steps. -/
def unescapeSteps : Nat → List Char → List Char
  | 0, s => s
  | _, [] => []
  | fuel + 1, c :: rest =>
    match c, rest with
    | '\\', d :: after =>
      if Text.isAsciiPunctuation d then d :: unescapeSteps fuel after
      else '\\' :: unescapeSteps fuel rest
    | '&', _ =>
      match readStrictReference? ('&' :: rest) with
      | some (d, after) => d :: unescapeSteps fuel after
      | none => '&' :: unescapeSteps fuel rest
    | _, _ => c :: unescapeSteps fuel rest

def unescape (s : List Char) : List Char :=
  unescapeSteps s.length s

end SafeMarkdown.Markdown
