import SafeMarkdown.Failure

/-!
# A place in a YAML text

Indentation and line ends carry meaning in YAML, so a place in a text knows its line and its column.
Line ends are those of Unicode; all but two of them count as line feeds.
-/

namespace SafeMarkdown.Yaml

/-- Why a scalar lacks the value that its kind promises. -/
inductive ScalarFault where
  /-- Its text cannot be read, told in words. -/
  | unusable (message : String)
  /-- It is no date or no time of the calendar. -/
  | calendar (fault : CalendarFault)
  /-- It names a character by a number that is far too large. -/
  | largeNumber
  /-- Its word stands for nothing. -/
  | missingKey
  | missingItem
  /-- Its text has not the form of its kind. -/
  | unsupported

def ScalarFault.failure : ScalarFault → Failure
  | unusable message => .unusable message
  | calendar fault => .calendar fault
  | largeNumber => .foreign "OverflowError" "Python int too large to convert to C int"
  | missingKey => .missingKey
  | missingItem => .missingItem
  | unsupported => .unsupported

/-- Why a text has no value: it is no YAML, or a scalar in it lacks the value that its kind
promises. -/
inductive Fault where
  | malformed
  | scalar (cause : ScalarFault)

def isBreak (c : Char) : Bool :=
  c == '\n' || c == '\r' || c.toNat == 0x85 || c.toNat == 0x2028 || c.toNat == 0x2029

def isBlank (c : Char) : Bool :=
  c == ' ' || c == '\t'

/-- Whether the text ends or something blank follows. -/
def endsWord (s : List Char) : Bool :=
  match s with
  | [] => true
  | c :: _ => isBlank c || isBreak c

/-- Whether the text ends, or its line or a space follows, but no tab. -/
def endsField (s : List Char) : Bool :=
  match s with
  | [] => true
  | c :: _ => c == ' ' || isBreak c

def endsLine (s : List Char) : Bool :=
  match s with
  | [] => true
  | c :: _ => isBreak c

def isMark (mark : String) (s : List Char) : Bool :=
  mark.toList.isPrefixOf s && endsWord (s.drop 3)

def isDocumentMark (s : List Char) : Bool :=
  isMark "---" s || isMark "..." s

def isNameChar (c : Char) : Bool :=
  c.isAlphanum || c == '-' || c == '_'

/-- A place in a text and what follows it. -/
structure Cursor where
  rest : List Char
  index : Nat := 0
  line : Nat := 0
  column : Nat := 0

namespace Cursor

def peek (c : Cursor) : Option Char :=
  c.rest.head?

def sees (c : Cursor) (d : Char) : Bool :=
  c.rest.head? == some d

/-- The place after one more character. A carriage return before a line feed does not end the
line. -/
def next (c : Cursor) : Cursor :=
  match c.rest with
  | [] => c
  | d :: rest =>
    if isBreak d && !(d == '\r' && rest.head? == some '\n') then
      ⟨rest, c.index + 1, c.line + 1, 0⟩
    else ⟨rest, c.index + 1, c.line, if d.toNat == 0xfeff then c.column else c.column + 1⟩

def forward (c : Cursor) : Nat → Cursor
  | 0 => c
  | n + 1 => c.next.forward n

def span (p : Char → Bool) (c : Cursor) : List Char × Cursor :=
  let taken := c.rest.takeWhile p
  (taken, c.forward taken.length)

def skip (p : Char → Bool) (c : Cursor) : Cursor :=
  (c.span p).2

/-- The line end that follows, as it counts, and the place after it. -/
def lineEnd? (c : Cursor) : Option (Char × Cursor) :=
  match c.rest with
  | '\r' :: '\n' :: _ => some ('\n', c.forward 2)
  | d :: _ =>
    if isBreak d then some (if d.toNat == 0x2028 || d.toNat == 0x2029 then d else '\n', c.next)
    else none
  | [] => none

def skipComment (c : Cursor) : Cursor :=
  if c.sees '#' then c.skip (!isBreak ·) else c

/-- The place in the next line, when nothing but a comment follows in this one. -/
def endLine (c : Cursor) : Except Fault Cursor :=
  let c := (c.skip (· == ' ')).skipComment
  match c.lineEnd? with
  | some (_, after) => .ok after
  | none => if c.rest.isEmpty then .ok c else .error .malformed

end Cursor

end SafeMarkdown.Yaml
