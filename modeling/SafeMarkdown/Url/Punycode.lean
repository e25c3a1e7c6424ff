/-!
# Names of hosts

The name of a host is written in ASCII: a label with other characters is encoded by Bootstring with
the parameters of Punycode. For reading, an encoded label is decoded.
-/

namespace SafeMarkdown.Url

namespace Punycode

/-- Adapts the bias after a delta for so many characters. -/
def adaptSteps : Nat → Nat → Nat → Nat
  | 0, k, delta => k + 36 * delta / (delta + 38)
  | fuel + 1, k, delta =>
    if 455 < delta then adaptSteps fuel (k + 36) (delta / 35) else k + 36 * delta / (delta + 38)

/-- The bias after a delta, the first of all or a later one, for so many characters. -/
def adapt (delta count : Nat) (first : Bool) : Nat :=
  let delta := if first then delta / 700 else delta / 2
  adaptSteps delta 0 (delta + delta / count)

def threshold (k bias : Nat) : Nat :=
  if k ≤ bias then 1 else min 26 (k - bias)

def digit (n : Nat) : Char :=
  if n < 26 then Char.ofNat (97 + n) else Char.ofNat (22 + n)

/-- The digits of a delta. -/
def variableLength (bias : Nat) : Nat → Nat → Nat → List Char
  | 0, _, q => [digit q]
  | fuel + 1, k, q =>
    let t := threshold k bias
    if q < t then [digit q]
    else digit (t + (q - t) % (36 - t)) :: variableLength bias fuel (k + 36) ((q - t) / (36 - t))

/-- What the encoder carries along. -/
structure Encoding where
  delta : Nat := 0
  bias : Nat := 72
  handled : Nat
  first : Bool := true
  out : List Char := []

def encodePoint (text : List Nat) (n : Nat) (e : Encoding) : Encoding :=
  let e := text.foldl
    (fun e c ↦
      if c < n then { e with delta := e.delta + 1 }
      else if c = n then
        { delta := 0, bias := adapt e.delta (e.handled + 1) e.first, handled := e.handled + 1,
          first := false, out := e.out ++ variableLength e.bias (e.delta + 1) 36 e.delta }
      else e)
    e
  { e with delta := e.delta + 1 }

/-- Encodes code points in rising order, the text being handled up to `from`. -/
def encodePoints (text : List Nat) : List Nat → Nat → Encoding → Encoding
  | [], _, e => e
  | n :: rest, start, e =>
    let e := { e with delta := e.delta + (n - start) * (e.handled + 1) }
    encodePoints text rest (n + 1) (encodePoint text n e)

def encode (label : List Char) : List Char :=
  let basic := label.filter (·.toNat < 128)
  let text := label.map (·.toNat)
  let points := ((text.filter (128 ≤ ·)).mergeSort (· ≤ ·)).eraseDups
  let e := encodePoints text points 128 { handled := basic.length }
  (if basic.isEmpty then [] else basic ++ ['-']) ++ e.out

def digitValue? (c : Char) : Option Nat :=
  if 'a' ≤ c && c ≤ 'z' then some (c.toNat - 97)
  else if 'A' ≤ c && c ≤ 'Z' then some (c.toNat - 65)
  else if '0' ≤ c && c ≤ '9' then some (c.toNat - 22)
  else none

/-- Reads a delta: its value and the rest. -/
def readDelta? (bias : Nat) : Nat → Nat → Nat → List Char → Option (Nat × List Char)
  | _, _, _, [] => none
  | k, weight, value, c :: rest =>
    match digitValue? c with
    | none => none
    | some d =>
      let t := threshold k bias
      let value := value + d * weight
      if d < t then some (value, rest)
      else readDelta? bias (k + 36) (weight * (36 - t)) value rest

/-- Inserts the characters that deltas give, in so many steps. -/
def decodeSteps : Nat → Nat → Nat → Nat → Bool → List Char → List Char → Option (List Char)
  | 0, _, _, _, _, out, _ => some out
  | _, _, _, _, _, out, [] => some out
  | fuel + 1, point, place, bias, first, out, s =>
    match readDelta? bias 36 1 0 s with
    | none => none
    | some (delta, rest) =>
      let count := out.length + 1
      let i := place + delta
      let point := point + i / count
      if 0x110000 ≤ point then none
      else
        let i := i % count
        decodeSteps fuel point (i + 1) (adapt delta count first) false
          (out.take i ++ Char.ofNat point :: out.drop i) rest

/-- The label of an encoded form. -/
def decode? (s : List Char) : Option (List Char) :=
  let digits := (s.reverse.takeWhile (· != '-')).reverse
  let basic := (s.take (s.length - digits.length)).dropLast
  if basic.all (·.toNat < 128) then decodeSteps s.length 128 0 72 true basic digits else none

end Punycode

def isLabelEnd (c : Char) : Bool :=
  c == '.' || c.toNat == 0x3002 || c.toNat == 0xff0e || c.toNat == 0xff61

def labelsOf : List Char → List (List Char)
  | [] => [[]]
  | c :: rest =>
    if isLabelEnd c then [] :: labelsOf rest
    else match labelsOf rest with
      | [] => [[c]]
      | l :: ls => (c :: l) :: ls

/-- A name with each of its labels changed; what stands before an at sign stays. -/
def mapLabels (f : List Char → Option (List Char)) (name : List Char) : Option (List Char) := do
  let box := name.takeWhile (· != '@')
  let rest := (name.dropWhile (· != '@')).drop 1
  let (kept, domain) := if name.contains '@' then (box ++ ['@'], rest.takeWhile (· != '@'))
    else ([], name)
  let labels ← (labelsOf domain).mapM f
  return kept ++ ['.'].intercalate labels

def asciiName (name : List Char) : List Char :=
  let label (l : List Char) : Option (List Char) :=
    some (if l.any (126 < ·.toNat) then "xn--".toList ++ Punycode.encode l else l)
  (mapLabels label name).getD name

/-- The form of a name for reading; a name with a label that cannot be decoded stays. -/
def readableName (name : List Char) : List Char :=
  let label (l : List Char) : Option (List Char) :=
    if "xn--".toList.isPrefixOf l then Punycode.decode? ((l.drop 4).map Char.toLower) else some l
  (mapLabels label name).getD name

end SafeMarkdown.Url
