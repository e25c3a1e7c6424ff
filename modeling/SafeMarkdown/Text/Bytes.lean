import SafeMarkdown.Failure

/-!
# Bytes as text

Reading bytes as UTF-8 text. The first byte sequence that is no character stops the reading; the
fault names the bytes that were consumed as its beginning.

In base 64, bytes are written as characters of six bits each. Characters that are none of these are
passed over, and padding ends the text once it completes a group of four.
-/

namespace SafeMarkdown.Text

/-- The number of bytes of a character by its first byte, and the range of its second byte, which
excludes overlong forms, surrogates and what lies beyond Unicode. -/
def leadByte (b : Nat) : Option (Nat × Nat × Nat) :=
  if b < 0x80 then some (1, 0, 0)
  else if b < 0xc2 then none
  else if b < 0xe0 then some (2, 0x80, 0xbf)
  else if b = 0xe0 then some (3, 0xa0, 0xbf)
  else if b = 0xed then some (3, 0x80, 0x9f)
  else if b < 0xf0 then some (3, 0x80, 0xbf)
  else if b = 0xf0 then some (4, 0x90, 0xbf)
  else if b < 0xf4 then some (4, 0x80, 0xbf)
  else if b = 0xf4 then some (4, 0x80, 0x8f)
  else none

/-- Reads the `count` continuation bytes of a character, the first of them within a range; on a
fault gives the number of good ones and whether the input ended there. -/
def continuation (low high : Nat) : Nat → Nat → List UInt8 → Except (Nat × Bool) (Nat × List UInt8)
  | 0, code, rest => .ok (code, rest)
  | _ + 1, _, [] => .error (0, true)
  | count + 1, code, b :: rest =>
    if low ≤ b.toNat && b.toNat ≤ high then
      match continuation 0x80 0xbf count (code * 64 + b.toNat % 64) rest with
      | .ok r => .ok r
      | .error (good, ended) => .error (good + 1, ended)
    else .error (0, false)

/-- Decodes bytes from a position on; each round consumes at least one byte. -/
def decodeFrom : Nat → Nat → List UInt8 → Except EncodingFault (List Char)
  | 0, _, _ => .ok []
  | _, _, [] => .ok []
  | fuel + 1, position, b :: rest =>
    match leadByte b.toNat with
    | none => .error ⟨.start, b.toNat, position, 1⟩
    | some (width, low, high) =>
      let start := if width = 1 then b.toNat else b.toNat % Nat.pow 2 (7 - width)
      match continuation low high (width - 1) start rest with
      | .ok (code, more) => (decodeFrom fuel (position + width) more).map (Char.ofNat code :: ·)
      | .error (good, ended) =>
        .error ⟨if ended then .truncated else .continuation, b.toNat, position, good + 1⟩

def decodeUtf8 (bs : List UInt8) : Except EncodingFault (List Char) :=
  decodeFrom bs.length 0 bs

/-- A text with its line ends made line feeds: a carriage return, alone or before a line feed, is
one. -/
def unifyLineEnds : List Char → List Char
  | [] => []
  | '\r' :: '\n' :: rest => '\n' :: unifyLineEnds rest
  | '\r' :: rest => '\n' :: unifyLineEnds rest
  | c :: rest => c :: unifyLineEnds rest

/-- The six bits of a character. -/
def base64Value? (c : Char) : Option Nat :=
  if 'A' ≤ c && c ≤ 'Z' then some (c.toNat - 65)
  else if 'a' ≤ c && c ≤ 'z' then some (c.toNat - 71)
  else if '0' ≤ c && c ≤ '9' then some (c.toNat + 4)
  else if c == '+' then some 62
  else if c == '/' then some 63
  else none

/-- The bytes of a text, of which `place` characters of the current group have been read; `left` is
what these leave of bits, and `pads` counts the padding behind them. A text that ends inside of a
group is none. -/
def base64From (place left pads : Nat) : List Char → Option (List UInt8)
  | [] => if place = 0 then some [] else none
  | c :: rest =>
    if c == '=' then
      if 2 ≤ place then
        if 4 ≤ place + pads + 1 then some [] else base64From place left (pads + 1) rest
      else base64From place left pads rest
    else
      match base64Value? c, place with
      | none, _ => base64From place left pads rest
      | some v, 0 => base64From 1 v 0 rest
      | some v, 1 => (base64From 2 (v % 16) 0 rest).map (UInt8.ofNat (left * 4 + v / 16) :: ·)
      | some v, 2 => (base64From 3 (v % 4) 0 rest).map (UInt8.ofNat (left * 16 + v / 4) :: ·)
      | some v, _ => (base64From 0 0 0 rest).map (UInt8.ofNat (left * 64 + v) :: ·)

def decodeBase64? (s : List Char) : Option (List UInt8) :=
  base64From 0 0 0 s

end SafeMarkdown.Text
