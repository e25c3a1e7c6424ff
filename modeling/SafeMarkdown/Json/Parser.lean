import SafeMarkdown.Value

/-!
# Reading JSON texts

A JSON text is one value, with white space around it and around its parts. A number with a point or
an exponent is a double, any other an integer of at most 4300 digits; `NaN` and the infinities are
read too. A name that repeats inside an object keeps its first place and its last value.
-/

namespace SafeMarkdown.Json

def isSpace (c : Char) : Bool :=
  c == ' ' || c == '\n' || c == '\t' || c == '\r'

def skipSpace (s : List Char) : List Char :=
  s.dropWhile isSpace

/-- The value of a hexadecimal digit. -/
def hexValue? (c : Char) : Option Nat :=
  if '0' ≤ c && c ≤ '9' then some (c.toNat - 48)
  else if 'a' ≤ c && c ≤ 'f' then some (c.toNat - 87)
  else if 'A' ≤ c && c ≤ 'F' then some (c.toNat - 55)
  else none

/-- The number that four hexadecimal digits write. -/
def hexFour : List Char → Option (Nat × List Char)
  | a :: b :: c :: d :: rest => do
    let n := (((← hexValue? a) * 16 + (← hexValue? b)) * 16 + (← hexValue? c)) * 16 + (← hexValue? d)
    some (n, rest)
  | _ => none

/-- The character that a `\u` escape stands for; two escapes that form a surrogate pair are one
character. -/
def unicodeEscape (s : List Char) : Option (Char × List Char) := do
  let (n, rest) ← hexFour s
  if 0xd800 ≤ n && n < 0xdc00 then
    match rest with
    | '\\' :: 'u' :: more =>
      match hexFour more with
      | some (m, after) =>
        if 0xdc00 ≤ m && m < 0xe000 then
          some (Char.ofNat (0x10000 + (n - 0xd800) * 0x400 + (m - 0xdc00)), after)
        else some (Char.ofNat 0xfffd, rest)
      | none => some (Char.ofNat 0xfffd, rest)
    | _ => some (Char.ofNat 0xfffd, rest)
  else if 0xdc00 ≤ n && n < 0xe000 then some (Char.ofNat 0xfffd, rest)
  else some (Char.ofNat n, rest)

def simpleEscape? (c : Char) : Option Char :=
  if c == '"' || c == '\\' || c == '/' then some c
  else if c == 'n' then some '\n'
  else if c == 'r' then some '\r'
  else if c == 't' then some '\t'
  else if c == 'b' then some (Char.ofNat 8)
  else if c == 'f' then some (Char.ofNat 12)
  else none

/-- The characters of a string up to its closing quote. Each round consumes a character. -/
def stringRest : Nat → List Char → Option (List Char × List Char)
  | 0, _ => none
  | _, [] => none
  | fuel + 1, c :: rest =>
    if c == '"' then some ([], rest)
    else if c == '\\' then
      match rest with
      | [] => none
      | e :: more =>
        if e == 'u' then do
          let (d, after) ← unicodeEscape more
          let (ds, last) ← stringRest fuel after
          some (d :: ds, last)
        else do
          let d ← simpleEscape? e
          let (ds, last) ← stringRest fuel more
          some (d :: ds, last)
    else if c.toNat < 32 then none
    else do
      let (ds, last) ← stringRest fuel rest
      some (c :: ds, last)

def isDigit (c : Char) : Bool :=
  '0' ≤ c && c ≤ '9'

def natOf (ds : List Char) : Nat :=
  ds.foldl (fun n c ↦ n * 10 + (c.toNat - 48)) 0

/-- The point and the digits after it, when there is at least one. -/
def fractionPart (s : List Char) : List Char × List Char :=
  match s with
  | '.' :: rest =>
    let ds := rest.takeWhile isDigit
    if ds.isEmpty then ([], s) else (ds, rest.dropWhile isDigit)
  | _ => ([], s)

def exponentPart (s : List Char) : Option Int × List Char :=
  match s with
  | e :: rest =>
    if e == 'e' || e == 'E' then
      let (negative, body) := match rest with
        | '-' :: more => (true, more)
        | '+' :: more => (false, more)
        | _ => (false, rest)
      let ds := body.takeWhile isDigit
      if ds.isEmpty then (none, s)
      else
        let n : Int := natOf ds
        (some (if negative then -n else n), body.dropWhile isDigit)
    else (none, s)
  | [] => (none, s)

/-- A number after its sign. -/
def unsignedNumber (negative : Bool) (s : List Char) : Option (Value × List Char) :=
  let (whole, rest) := match s with
    | '0' :: more => (['0'], more)
    | _ => (s.takeWhile isDigit, s.dropWhile isDigit)
  if whole.isEmpty then none
  else
    let (fraction, rest) := fractionPart rest
    let (exponent, rest) := exponentPart rest
    match exponent with
    | none =>
      if fraction.isEmpty then
        if 4300 < whole.length then none
        else
          let n : Int := natOf whole
          some (.int (if negative then -n else n), rest)
      else
        some (.float (.ofDecimal negative (natOf (whole ++ fraction)) (-fraction.length)), rest)
    | some e =>
      some (.float (.ofDecimal negative (natOf (whole ++ fraction)) (e - fraction.length)), rest)

def afterWord (word : String) (s : List Char) : Option (List Char) :=
  if word.toList.isPrefixOf s then some (s.drop word.length) else none

/-- A number, or the name of one that is not finite. -/
def number (s : List Char) : Option (Value × List Char) :=
  match s with
  | '-' :: rest =>
    match afterWord "Infinity" rest with
    | some after => some (.float (.infinite true), after)
    | none => unsignedNumber true rest
  | _ => unsignedNumber false s

/-- A value that is neither string, list nor object. -/
def word (s : List Char) : Option (Value × List Char) :=
  ((afterWord "null" s).map (.null, ·)).or <|
  ((afterWord "true" s).map (.bool true, ·)).or <|
  ((afterWord "false" s).map (.bool false, ·)).or <|
  ((afterWord "NaN" s).map (.float .nan, ·)).or <|
  ((afterWord "Infinity" s).map (.float (.infinite false), ·)).or <|
  number s

mutual

/-- A value at the start of a text. -/
def value : Nat → List Char → Option (Value × List Char)
  | 0, _ => none
  | fuel + 1, s =>
    match s with
    | '"' :: rest => (stringRest (rest.length + 1) rest).map fun (cs, after) ↦
        (.str (String.ofList cs), after)
    | '[' :: rest =>
      let rest := skipSpace rest
      match rest with
      | ']' :: after => some (.arr [], after)
      | _ => (items fuel rest).map fun (vs, after) ↦ (.arr vs, after)
    | '\x7b' :: rest =>
      let rest := skipSpace rest
      match rest with
      | '\x7d' :: after => some (.obj [], after)
      | _ => (members fuel rest).map fun (fs, after) ↦ (.obj (Fields.ofList fs), after)
    | _ => word s

/-- List items up to the closing bracket. -/
def items : Nat → List Char → Option (List Value × List Char)
  | 0, _ => none
  | fuel + 1, s => do
    let (v, rest) ← value fuel s
    match skipSpace rest with
    | ',' :: more =>
      let (vs, after) ← items fuel (skipSpace more)
      some (v :: vs, after)
    | ']' :: after => some ([v], after)
    | _ => none

/-- Object fields up to the closing brace. -/
def members : Nat → List Char → Option (List (String × Value) × List Char)
  | 0, _ => none
  | fuel + 1, s =>
    match s with
    | '"' :: rest => do
      let (name, rest) ← stringRest (rest.length + 1) rest
      match skipSpace rest with
      | ':' :: rest =>
        let (v, rest) ← value fuel (skipSpace rest)
        match skipSpace rest with
        | ',' :: more =>
          let (fs, after) ← members fuel (skipSpace more)
          some ((String.ofList name, v) :: fs, after)
        | '\x7d' :: after => some ([(String.ofList name, v)], after)
        | _ => none
      | _ => none
    | _ => none

end

def parse? (s : List Char) : Option Value := do
  let (v, rest) ← value (s.length + 1) (skipSpace s)
  if (skipSpace rest).isEmpty then some v else none

end SafeMarkdown.Json
