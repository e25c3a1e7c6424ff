import SafeMarkdown.Text.Blank

/-!
# Character references

A character reference names a character by a word or by its number. Inside an attribute a word may
lack its semicolon and run on into other letters when it is one of the old names; a number that
stands for no character is replaced or dropped by the rules for erroneous references. In running
text a word ends where letters and digits end.
-/

namespace SafeMarkdown.Html

def looseEntities : List (String × Nat) := [
  ("amp", 0x26), ("AMP", 0x26), ("lt", 0x3c), ("LT", 0x3c), ("gt", 0x3e), ("GT", 0x3e),
  ("quot", 0x22), ("QUOT", 0x22), ("copy", 0xa9), ("COPY", 0xa9), ("nbsp", 0xa0)]

def strictEntities : List (String × Nat) := [("colon", 0x3a), ("apos", 0x27)]

def entity? (name : List Char) : Option Char :=
  ((looseEntities ++ strictEntities).lookup (String.ofList name)).map Char.ofNat

def looseEntity? (name : List Char) : Option Char :=
  (looseEntities.lookup (String.ofList name)).map Char.ofNat

/-- What the code points 128 to 159 stand for in the western code page; the five that are not
assigned there stand for themselves. -/
def westernCharacters : List Nat := [
  0x20ac, 0x81, 0x201a, 0x192, 0x201e, 0x2026, 0x2020, 0x2021, 0x2c6, 0x2030, 0x160, 0x2039, 0x152,
  0x8d, 0x17d, 0x8f, 0x90, 0x2018, 0x2019, 0x201c, 0x201d, 0x2022, 0x2013, 0x2014, 0x2dc, 0x2122,
  0x161, 0x203a, 0x153, 0x9d, 0x17e, 0x178]

def westernCode (n : Nat) : Nat :=
  if 0x80 ≤ n && n < 0xa0 then westernCharacters.getD (n - 0x80) n else n

def replacement : Char := Char.ofNat 0xfffd

def isCharacter (n : Nat) : Bool :=
  n < 0xd800 || (0xe000 ≤ n && n < 0x110000)

def isForbidden (n : Nat) : Bool :=
  (0x1 ≤ n && n ≤ 0x8) || n == 0xb || (0xe ≤ n && n ≤ 0x1f) || (0x7f ≤ n && n ≤ 0x9f) ||
    (0xfdd0 ≤ n && n ≤ 0xfdef) || n % 0x10000 == 0xfffe || n % 0x10000 == 0xffff

def attributeNumber (n : Nat) : List Char :=
  if n = 0 then [replacement]
  else if n = 0xd then ['\r']
  else if 0x80 ≤ n && n < 0xa0 then [Char.ofNat (westernCode n)]
  else if !isCharacter n then [replacement]
  else if isForbidden n then []
  else [Char.ofNat n]

def textNumber (n : Nat) : Char :=
  if n < 256 then Char.ofNat (westernCode n)
  else if isCharacter n then Char.ofNat n
  else replacement

def isDigit (c : Char) : Bool :=
  '0' ≤ c && c ≤ '9'

/-- The value of a hexadecimal digit. -/
def hexValue? (c : Char) : Option Nat :=
  if isDigit c then some (c.toNat - 48)
  else if 'a' ≤ c && c ≤ 'f' then some (c.toNat - 87)
  else if 'A' ≤ c && c ≤ 'F' then some (c.toNat - 55)
  else none

def isHexDigit (c : Char) : Bool :=
  (hexValue? c).isSome

def numberOf (base : Nat) (ds : List Char) : Nat :=
  ds.foldl (fun n c ↦ n * base + (hexValue? c).getD 0) 0

/-- The digits of a numeric reference after `&#`: the number and what follows the digits. -/
def numericBody (s : List Char) : Option (Nat × List Char) :=
  match s with
  | x :: rest =>
    if x == 'x' || x == 'X' then
      let ds := rest.takeWhile isHexDigit
      if ds.isEmpty then none else some (numberOf 16 ds, rest.dropWhile isHexDigit)
    else
      let ds := s.takeWhile isDigit
      if ds.isEmpty then none else some (numberOf 10 ds, s.dropWhile isDigit)
  | [] => none

def dropSemicolon : List Char → List Char
  | ';' :: rest => rest
  | s => s

/-- Whether a character may be part of a name inside an attribute. -/
def isNameChar (c : Char) : Bool :=
  !(c == '\t' || c == '\n' || c.toNat == 12 || c == ' ' || c == '<' || c == '&' || c == '#' ||
    c == ';')

/-- The longest old name that a word of at most so many characters starts with, and the rest of the
word; a name has two characters at least. -/
def loosePrefix? (word : List Char) : Nat → Option (Char × List Char)
  | 0 => none
  | n + 1 =>
    if n + 1 < 2 then none
    else match looseEntity? (word.take (n + 1)) with
      | some c => some (c, word.drop (n + 1))
      | none => loosePrefix? word n

/-- A reference inside an attribute, after its ampersand: the characters it stands for and what
follows it. -/
def attributeReference (s : List Char) : Option (List Char × List Char) :=
  match s with
  | '#' :: rest => (numericBody rest).map fun (n, after) ↦ (attributeNumber n, dropSemicolon after)
  | _ =>
    let word := (s.take 32).takeWhile isNameChar
    if word.isEmpty then none
    else
      let after := s.drop word.length
      let closed := after.head? == some ';'
      match if closed then entity? word else looseEntity? word with
      | some c => some ([c], dropSemicolon after)
      | none =>
        let whole := if closed then word ++ [';'] else word
        match loosePrefix? whole (whole.length - 1) with
        | some (c, left) => some (c :: left, dropSemicolon after)
        | none => some ('&' :: whole, dropSemicolon after)

/-- An attribute value with its references resolved, in so many steps. -/
def unescapeSteps : Nat → List Char → List Char
  | 0, s => s
  | _, [] => []
  | fuel + 1, c :: rest =>
    if c == '&' then
      match attributeReference rest with
      | some (cs, after) => cs ++ unescapeSteps fuel after
      | none => '&' :: unescapeSteps fuel rest
    else c :: unescapeSteps fuel rest

def unescape (s : List Char) : List Char :=
  unescapeSteps s.length s

end SafeMarkdown.Html
