/-!
# Sets of characters and white space

A Unicode property is a list of pairs of code points, first and last, in increasing order. The
decimal digits of all scripts come in runs of ten, from zero to nine, and are given by their zeros.

The white space of a text: the Unicode separators, the ASCII layout characters and the four
information separators U+001C to U+001F. Trimming and splitting into words are defined on lists
of characters.
-/

namespace SafeMarkdown.Text

def inRanges : List (Nat × Nat) → Nat → Bool
  | [], _ => false
  | (first, last) :: rest, n => (first ≤ n && n ≤ last) || inRanges rest n

/-- The code points of the zeros of all scripts. -/
def zeroDigits : List Nat := [
  0x30, 0x660, 0x6f0, 0x7c0, 0x966, 0x9e6, 0xa66, 0xae6, 0xb66, 0xbe6, 0xc66, 0xce6, 0xd66, 0xde6,
  0xe50, 0xed0, 0xf20, 0x1040, 0x1090, 0x17e0, 0x1810, 0x1946, 0x19d0, 0x1a80, 0x1a90, 0x1b50,
  0x1bb0, 0x1c40, 0x1c50, 0xa620, 0xa8d0, 0xa900, 0xa9d0, 0xa9f0, 0xaa50, 0xabf0, 0xff10, 0x104a0,
  0x10d30, 0x11066, 0x110f0, 0x11136, 0x111d0, 0x112f0, 0x11450, 0x114d0, 0x11650, 0x116c0,
  0x11730, 0x118e0, 0x11950, 0x11c50, 0x11d50, 0x11da0, 0x16a60, 0x16ac0, 0x16b50, 0x1d7ce,
  0x1d7d8, 0x1d7e2, 0x1d7ec, 0x1d7f6, 0x1e140, 0x1e2f0, 0x1e950, 0x1fbf0]

def isDecimalDigit (c : Char) : Bool :=
  zeroDigits.any fun start ↦ start ≤ c.toNat && c.toNat ≤ start + 9

/-- The digit from 0 to 9 with the value of a decimal digit; any other character stays. -/
def toAsciiDigit (c : Char) : Char :=
  match zeroDigits.find? fun start ↦ start ≤ c.toNat && c.toNat ≤ start + 9 with
  | some start => Char.ofNat (48 + (c.toNat - start))
  | none => c

def blankRanges : List (Nat × Nat) := [
  (0x09, 0x0d), (0x1c, 0x20), (0x85, 0x85), (0xa0, 0xa0), (0x1680, 0x1680), (0x2000, 0x200a),
  (0x2028, 0x2029), (0x202f, 0x202f), (0x205f, 0x205f), (0x3000, 0x3000)]

def isBlank (c : Char) : Bool :=
  inRanges blankRanges c.toNat

def isSpaceOrTab (c : Char) : Bool :=
  c == ' ' || c == '\t'

def dropEndWhile (p : Char → Bool) (s : List Char) : List Char :=
  (s.reverse.dropWhile p).reverse

def trimWhile (p : Char → Bool) (s : List Char) : List Char :=
  dropEndWhile p (s.dropWhile p)

def trim (s : List Char) : List Char :=
  trimWhile isBlank s

def trimEnd (s : List Char) : List Char :=
  dropEndWhile isBlank s

/-- The maximal runs of characters that do not satisfy `p`; `word` is the one being read,
backwards. -/
def splitRuns (p : Char → Bool) (word : List Char) : List Char → List (List Char)
  | [] => if word.isEmpty then [] else [word.reverse]
  | c :: rest =>
    if p c then
      if word.isEmpty then splitRuns p [] rest else word.reverse :: splitRuns p [] rest
    else splitRuns p (c :: word) rest

def words (s : List Char) : List (List Char) :=
  splitRuns isBlank [] s

/-- The pieces of a text between the characters that satisfy `p`, empty ones included. -/
def splitAtEach (p : Char → Bool) : List Char → List (List Char)
  | [] => [[]]
  | c :: rest =>
    if p c then [] :: splitAtEach p rest
    else match splitAtEach p rest with
      | [] => [[c]]
      | piece :: pieces => (c :: piece) :: pieces

def strip (s : String) : String :=
  String.ofList (trim s.toList)

def wordsOf (s : String) : List String :=
  (words s.toList).map String.ofList

def startsWith (s start : String) : Bool :=
  start.toList.isPrefixOf s.toList

def endsWith (s ending : String) : Bool :=
  ending.toList.isSuffixOf s.toList

def join (separator : String) (parts : List String) : String :=
  separator.intercalate parts

/-- The parts of a text between commas, without white space around them and without blank ones. -/
def commaList (s : String) : List String :=
  ((splitAtEach (· == ',') s.toList).map fun part ↦ String.ofList (trim part)).filter
    fun part ↦ !part.isEmpty

end SafeMarkdown.Text
