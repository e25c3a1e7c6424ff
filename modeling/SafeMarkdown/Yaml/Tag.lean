import SafeMarkdown.Yaml.Cursor

/-!
# Tags

A tag says what kind of value a node stands for. Where none is given, a plain scalar is known by its
form, as YAML 1.1 has it: the words for truth values and null, numbers in several bases, also in
sixties, and moments of time. All other scalars are texts.
-/

namespace SafeMarkdown.Yaml

/-- What a node stands for. -/
inductive Tag where
  | null
  | bool
  | int
  | float
  | binary
  | timestamp
  | omap
  | pairs
  | set
  | str
  | seq
  | map
  | merge
  /-- The default value of a mapping. -/
  | value
  | unknown
  deriving DecidableEq

namespace Tag

def standardStart : String := "tag:yaml.org,2002:"

def ofName (name : String) : Tag :=
  let tags := [("null", null), ("bool", bool), ("int", int), ("float", float), ("binary", binary),
    ("timestamp", timestamp), ("omap", omap), ("pairs", pairs), ("set", set), ("str", str),
    ("seq", seq), ("map", map), ("merge", merge), ("value", value)]
  (tags.find? fun (n, _) ↦ standardStart ++ n == name).elim unknown (·.2)

end Tag

def allOf (p : Char → Bool) (s : List Char) : Bool :=
  !s.isEmpty && s.all p

def isDigit (c : Char) : Bool :=
  '0' ≤ c && c ≤ '9'

def isDigitOrLine (c : Char) : Bool :=
  isDigit c || c == '_'

/-- A text without a sign at its start. -/
def dropSign (s : List Char) : List Char :=
  match s with
  | '+' :: rest => rest
  | '-' :: rest => rest
  | _ => s

/-- What follows places of sixty at the start of a text, each a colon and one or two digits below
sixty; at least one. -/
def afterSixties? : List Char → Option (List Char)
  | ':' :: a :: b :: rest =>
    if isDigit a && a < '6' && isDigit b then some ((afterSixties? rest).getD rest)
    else if isDigit a then some ((afterSixties? (b :: rest)).getD (b :: rest))
    else none
  | [':', a] => if isDigit a then some [] else none
  | _ => none

/-- Whether a text is a number in places of sixty, of which the rest satisfies `p`. -/
def isSexagesimal (p : List Char → Bool) (s : List Char) : Bool :=
  match afterSixties? (s.dropWhile isDigitOrLine) with
  | some rest => p rest
  | none => false

/-- Whether a plain scalar is an integer. -/
def isInt (s : List Char) : Bool :=
  match dropSign s with
  | '0' :: 'b' :: rest => allOf (fun c ↦ c == '0' || c == '1' || c == '_') rest
  | '0' :: 'x' :: rest => allOf (fun c ↦ (hexDigit c) || c == '_') rest
  | '0' :: rest => rest.all fun c ↦ ('0' ≤ c && c ≤ '7') || c == '_'
  | c :: rest => isDigit c && (rest.all isDigitOrLine || isSexagesimal List.isEmpty rest)
  | [] => false
where
  hexDigit (c : Char) : Bool :=
    isDigit c || ('a' ≤ c && c ≤ 'f') || ('A' ≤ c && c ≤ 'F')

/-- Whether a text is empty or an exponent with a sign. -/
def isExponent (s : List Char) : Bool :=
  match s with
  | [] => true
  | e :: sign :: ds => (e == 'e' || e == 'E') && (sign == '+' || sign == '-') && allOf isDigit ds
  | _ => false

/-- Whether a plain scalar is a number with a point. -/
def isFloat (s : List Char) : Bool :=
  let infinite := [".inf", ".Inf", ".INF"].contains (String.ofList (dropSign s))
  let none := [".nan", ".NaN", ".NAN"].contains (String.ofList s)
  let decimal := match dropSign s with
    | c :: rest =>
      isDigit c && match rest.dropWhile isDigitOrLine with
        | '.' :: more => isExponent (more.dropWhile isDigitOrLine)
        | more =>
          match afterSixties? more with
          | some ('.' :: more) => more.all isDigitOrLine
          | _ => false
    | [] => false
  let fraction := match s with
    | '.' :: c :: rest => isDigit c && isExponent (rest.dropWhile isDigitOrLine)
    | _ => false
  infinite || none || decimal || fraction

/-- The digits at the start of a text, at least one and at most so many, and what follows. -/
def digits? (most : Nat) (s : List Char) : Option (List Char × List Char) :=
  let ds := (s.take most).takeWhile isDigit
  if ds.isEmpty then none else some (ds, s.drop ds.length)

/-- Exactly so many digits at the start of a text, and what follows. -/
def exactDigits? (count : Nat) (s : List Char) : Option (List Char × List Char) := do
  let (ds, rest) ← digits? count s
  if ds.length = count then some (ds, rest) else none

def after? (c : Char) (s : List Char) : Option (List Char) :=
  if s.head? == some c then some (s.drop 1) else none

structure TimeParts where
  year : List Char
  month : List Char
  day : List Char
  /-- Hour, minute, second and the digits of the fraction. -/
  clock : Option (List Char × List Char × List Char × List Char) := none
  /-- The zone: no distance from universal time, or its sign, its hours and its minutes. -/
  zone : Option (Option (Bool × List Char × List Char)) := none

def zone? (s : List Char) : Option (Option (Option (Bool × List Char × List Char))) :=
  match s.dropWhile isBlank with
  | [] => if s.isEmpty then some none else none
  | ['Z'] => some (some none)
  | c :: rest => do
    guard (c == '+' || c == '-')
    let (hour, rest) ← digits? 2 rest
    match rest with
    | [] => some (some (some (c == '-', hour, [])))
    | ':' :: more => do
      let (minute, rest) ← exactDigits? 2 more
      guard rest.isEmpty
      some (some (some (c == '-', hour, minute)))
    | _ => none

/-- The parts of the clock and the zone that a text is. -/
def clock? (s : List Char) : Option ((List Char × List Char × List Char × List Char) ×
    Option (Option (Bool × List Char × List Char))) := do
  let (hour, s) ← digits? 2 s
  let (minute, s) ← exactDigits? 2 (← after? ':' s)
  let (second, s) ← exactDigits? 2 (← after? ':' s)
  match s with
  | '.' :: rest =>
    some ((hour, minute, second, rest.takeWhile isDigit), ← zone? (rest.dropWhile isDigit))
  | _ => some ((hour, minute, second, []), ← zone? s)

def timeParts? (s : List Char) : Option TimeParts := do
  let (year, s) ← exactDigits? 4 s
  let (month, s) ← digits? 2 (← after? '-' s)
  let (day, s) ← digits? 2 (← after? '-' s)
  match s with
  | [] => some { year, month, day }
  | c :: rest =>
    guard (c == 'T' || c == 't' || isBlank c)
    let (clock, zone) ← clock? (if isBlank c then rest.dropWhile isBlank else rest)
    some { year, month, day, clock := some clock, zone }

/-- Whether a plain scalar is a moment of time; a date alone has two digits for month and day. -/
def isTimestamp (s : List Char) : Bool :=
  match timeParts? s with
  | some p => p.clock.isSome || s.length = 10
  | none => false

def truthWords : List String := [
  "yes", "Yes", "YES", "no", "No", "NO", "true", "True", "TRUE", "false", "False", "FALSE", "on",
  "On", "ON", "off", "Off", "OFF"]

def nullWords : List String := ["", "~", "null", "Null", "NULL"]

def Tag.ofPlain (s : List Char) : Tag :=
  let word := String.ofList s
  if truthWords.contains word then .bool
  else if isFloat s then .float
  else if isInt s then .int
  else if word == "<<" then .merge
  else if nullWords.contains word then .null
  else if isTimestamp s then .timestamp
  else if word == "=" then .value
  else .str

end SafeMarkdown.Yaml
