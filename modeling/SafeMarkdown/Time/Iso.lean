import SafeMarkdown.Time.Calendar

/-!
# ISO 8601 texts

Writing dates and moments in the extended form, and reading them in the extended, basic and week
forms. Lengths and positions of a text that is read count its UTF-8 bytes. A moment's date part
ends where its form says, any one character stands between date and clock, a fraction of a second
is cut to six digits, and a text that is no moment may still be a date.
-/

namespace SafeMarkdown

namespace Iso

def pad (width n : Nat) : String :=
  let ds := Nat.toDigits 10 n
  String.ofList (List.replicate (width - ds.length) '0' ++ ds)

def dateText (d : Date) : String :=
  pad 4 d.year ++ "-" ++ pad 2 d.month ++ "-" ++ pad 2 d.day

def fractionText (micro : Nat) : String :=
  if micro == 0 then "" else "." ++ pad 6 micro

/-- An offset as signed hours and minutes, with seconds and their fraction when there are any. -/
def offsetText (o : Offset) : String :=
  let sign := if o.micros < 0 then "-" else "+"
  let micros := o.micros.natAbs
  let seconds := micros / 1000000
  let micro := micros % 1000000
  let tail :=
    if seconds % 60 == 0 && micro == 0 then ""
    else ":" ++ pad 2 (seconds % 60) ++ fractionText micro
  sign ++ pad 2 (seconds / 3600) ++ ":" ++ pad 2 (seconds / 60 % 60) ++ tail

/-- A moment as date and clock parted by `T`. -/
def momentText (m : Moment) : String :=
  dateText m.date ++ "T" ++ pad 2 m.hour.val ++ ":" ++ pad 2 m.minute.val ++ ":" ++
    pad 2 m.second.val ++ fractionText m.micro.val ++
    match m.offset with
    | none => ""
    | some o => offsetText o

def bytesOf (s : String) : List Char :=
  s.toUTF8.toList.map fun b ↦ Char.ofNat b.toNat

def isDigit (c : Char) : Bool :=
  '0' ≤ c && c ≤ '9'

def digitValue (c : Char) : Nat :=
  c.toNat - '0'.toNat

/-- Reads exactly `count` digits. -/
def digits : Nat → List Char → Option (Nat × List Char)
  | 0, s => some (0, s)
  | count + 1, s =>
    match s with
    | c :: rest =>
      if isDigit c then
        (digits count rest).map fun (n, after) ↦ (digitValue c * Nat.pow 10 count + n, after)
      else none
    | [] => none

/-- The week form of a date after its `W`; `dashed` tells whether its parts are parted by hyphens. -/
def readWeek (year : Nat) (dashed : Bool) (s : List Char) : Option (Except CalendarFault Date) := do
  let (week, rest) ← digits 2 s
  let day ← match rest with
    | [] => some 1
    | c :: more =>
      let start := if dashed then if c == '-' then some more else none else some (c :: more)
      start.bind fun t ↦ (digits 1 t).map Prod.fst
  (Date.ofWeek year week day).map .ok

/-- A date at the start of a text; `none` when the text has no date's form. -/
def readDate (s : List Char) : Option (Except CalendarFault Date) := do
  let (year, rest) ← digits 4 s
  let dashed := rest.head? == some '-'
  let rest := if dashed then rest.drop 1 else rest
  if rest.head? == some 'W' then readWeek year dashed (rest.drop 1)
  else
    let (month, rest) ← digits 2 rest
    let rest ← if dashed then if rest.head? == some '-' then some (rest.drop 1) else none
      else some rest
    let (day, _) ← digits 2 rest
    some (Date.make year month day)

/-- Where the date part of a text that may be a moment ends. -/
def dateEnd (s : List Char) : Nat :=
  let at? (i : Nat) : Option Char := s[i]?
  if s.length = 7 then 7
  else if at? 4 == some '-' then
    if at? 5 == some 'W' then
      if at? 8 == some '-' then
        if (at? 10).any isDigit then 8 else 10
      else 8
    else 10
  else if at? 4 == some 'W' then
    let i := 7 + ((s.drop 7).takeWhile isDigit).length
    if i < 9 then i else if i % 2 = 0 then 7 else 8
  else 8

/-- How the text of a clock reading ends after its hours, minutes and seconds: with nothing, with
one stray character, or with what is read as a fraction of a second. -/
inductive ClockEnd where
  | done
  | stray
  | fraction (rest : List Char)

/-- Reads up to so many pairs of digits. Either all of them are parted by colons or none is; which
of the two, the character after the first pair decides. -/
def readPairs : Nat → Option Bool → List Char → Option (List Nat × ClockEnd)
  | 0, _, s => some ([], .fraction s)
  | count + 1, parted, s => do
    let (n, rest) ← digits 2 s
    match rest with
    | [] => some ([n], .done)
    | [_] => some ([n], .stray)
    | c :: more =>
      let colons := parted.getD (c == ':')
      if colons && c == ':' then
        (readPairs count (some colons) more).map fun (ns, e) ↦ (n :: ns, e)
      else if c == '.' || c == ',' then some ([n], .fraction more)
      else if colons then none
      else (readPairs count (some colons) (c :: more)).map fun (ns, e) ↦ (n :: ns, e)

/-- A clock reading: hour, minute, second and microsecond. -/
structure Clock where
  hour : Nat
  minute : Nat
  second : Nat
  micro : Nat

/-- Reads a clock, and tells whether all of the text was part of it. The first six digits of a
fraction count. -/
def readClock (s : List Char) : Option (Clock × Bool) := do
  let (ns, ending) ← readPairs 3 none s
  let clock (micro : Nat) : Clock := ⟨ns.getD 0 0, ns.getD 1 0, ns.getD 2 0, micro⟩
  match ending with
  | .done => some (clock 0, true)
  | .stray => some (clock 0, false)
  | .fraction rest =>
    let count := min 6 rest.length
    let (n, after) ← digits count rest
    some (clock (n * Nat.pow 10 (6 - count)), (after.dropWhile isDigit).isEmpty)

/-- The offset that a clock reading after a sign stands for; one of less than a second is none. -/
def offsetOf (negative : Bool) (c : Clock) : Except CalendarFault Offset :=
  let seconds := (c.hour * 60 + c.minute) * 60 + c.second
  if seconds = 0 then .ok .utc
  else
    let micros : Int := seconds * 1000000 + c.micro
    Offset.make (if negative then -micros else micros)

def startsOffset (c : Char) : Bool :=
  c == '+' || c == '-' || c == 'Z'

/-- The clock of a moment and its offset, if it has one. A stray character is overlooked between
clock and offset only. -/
def readClockAndOffset (s : List Char) :
    Option (Clock × Option (Except CalendarFault Offset)) := do
  let (head, tail) := s.span fun c ↦ !startsOffset c
  let (clock, whole) ← readClock head
  match tail with
  | [] => if whole then some (clock, none) else none
  | 'Z' :: rest => if rest.isEmpty then some (clock, some (.ok .utc)) else none
  | sign :: rest =>
    let (offset, whole) ← readClock rest
    if whole then some (clock, some (offsetOf (sign == '-') offset)) else none

/-- The length in bytes of the UTF-8 character that starts with a byte. -/
def characterWidth (c : Char) : Nat :=
  if c.toNat < 0x80 then 1
  else if c.toNat / 16 == 0xe then 3
  else if c.toNat / 16 == 0xf then 4
  else 2

/-- A moment in any of the forms; `none` when the text is no moment. -/
def readMoment (s : String) : Option Moment := do
  let bytes := bytesOf s
  if bytes.length < 7 then none
  else
    let cut := dateEnd bytes
    let date ← (← readDate (bytes.take cut)).toOption
    match bytes.drop cut with
    | [] => some (.midnight date)
    | [_] => none
    | c :: rest =>
      let (clock, offset) ← readClockAndOffset (rest.drop (characterWidth c - 1))
      let offset ← match offset with
        | none => some none
        | some o => o.toOption.map some
      (Moment.make date clock.hour clock.minute clock.second clock.micro offset).toOption

/-- A date in any of the forms. -/
def readDateOnly (s : String) : Except CalendarFault Date :=
  let bytes := bytesOf s
  if bytes.length == 7 || bytes.length == 8 || bytes.length == 10 then
    match readDate bytes with
    | some r => r
    | none => .error (.unreadable s)
  else .error (.unreadable s)

/-- The instant that an ISO text names, as a moment of universal time without offset; a date names
its midnight. -/
def readInstant (s : String) : Except CalendarFault Moment :=
  match readMoment s with
  | some m => m.toUtc
  | none => (readDateOnly s).map .midnight

end Iso

end SafeMarkdown
