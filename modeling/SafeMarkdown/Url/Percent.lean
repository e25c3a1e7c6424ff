import SafeMarkdown.Text.Bytes

/-!
# Percent encoding

A link is written with the characters that a URL may hold; all others are encoded by the bytes of
their UTF-8 form. An encoding that is there already stays. For reading, encoded characters are
decoded, apart from those that would change the meaning of the link.
-/

namespace SafeMarkdown.Url

def isAsciiAlphanumeric (c : Char) : Bool :=
  c.isAlphanum

def digitValue? (c : Char) : Option Nat :=
  if '0' ≤ c && c ≤ '9' then some (c.toNat - 48)
  else if 'a' ≤ c && c ≤ 'f' then some (c.toNat - 87)
  else if 'A' ≤ c && c ≤ 'F' then some (c.toNat - 55)
  else none

def upperDigit (n : Nat) : Char :=
  if n < 10 then Char.ofNat (48 + n) else Char.ofNat (55 + n)

def encodedByte (b : Nat) : List Char :=
  ['%', upperDigit (b / 16), upperDigit (b % 16)]

def unencoded : List Char :=
  ";/?:@&=+$,-_.!~*'()#".toList

def encodeChar (c : Char) : List Char :=
  if isAsciiAlphanumeric c || unencoded.contains c then [c]
  else (String.singleton c).toUTF8.toList.flatMap fun b ↦ encodedByte b.toNat

/-- Encodes what a link may not hold. -/
def encode : List Char → List Char
  | [] => []
  | '%' :: a :: b :: rest =>
    if (digitValue? a).isSome && (digitValue? b).isSome then '%' :: a :: b :: encode rest
    else encodedByte 37 ++ encode (a :: b :: rest)
  | c :: rest => encodeChar c ++ encode rest

/-- The encoded byte that a text starts with, and the rest. -/
def readByte? : List Char → Option (Nat × List Char)
  | '%' :: a :: b :: rest =>
    match digitValue? a, digitValue? b with
    | some x, some y => some (x * 16 + y, rest)
    | _, _ => none
  | _ => none

def keptEncoded : List Char :=
  ";/?:@&=+$,#%".toList

/-- The number of bytes of a character by its first byte, when the first byte has the form of one. -/
def widthOf (b : Nat) : Nat :=
  if b / 32 = 6 then 2 else if b / 16 = 14 then 3 else if b / 8 = 30 then 4 else 1

def readContinuation : Nat → List Char → List Nat × List Char
  | 0, s => ([], s)
  | n + 1, s =>
    match readByte? s with
    | some (b, rest) =>
      if b / 64 = 2 then
        let (bs, after) := readContinuation n rest
        (b :: bs, after)
      else ([], s)
    | none => ([], s)

/-- Decodes for reading, in so many steps. Bytes that are no character become replacement
characters. -/
def decodeSteps : Nat → List Char → List Char
  | 0, s => s
  | _, [] => []
  | fuel + 1, c :: rest =>
    match readByte? (c :: rest) with
    | none => c :: decodeSteps fuel rest
    | some (b, after) =>
      if b < 128 then
        let d := Char.ofNat b
        (if keptEncoded.contains d then encodedByte b else [d]) ++ decodeSteps fuel after
      else
        let width := widthOf b
        let (more, behind) := readContinuation (width - 1) after
        if 1 < width && more.length + 1 = width then
          match Text.decodeUtf8 ((b :: more).map UInt8.ofNat) with
          | .ok cs => cs ++ decodeSteps fuel behind
          | .error _ => List.replicate width (Char.ofNat 0xfffd) ++ decodeSteps fuel behind
        else Char.ofNat 0xfffd :: decodeSteps fuel after

def decode (s : List Char) : List Char :=
  decodeSteps s.length s

end SafeMarkdown.Url
