import SafeMarkdown.Yaml.Cursor

/-!
# Texts of scalars

A scalar is plain, in quotes, or a block of its own. Lines are folded: one line end is a space, and
more line ends are one less. In a literal block every line end stays.
-/

namespace SafeMarkdown.Yaml

/-- The line ends and blanks between the lines of a scalar in quotes: the line ends. -/
def quotedBreaks : Nat → Cursor → Except Fault (List Char × Cursor)
  | 0, c => .ok ([], c)
  | fuel + 1, c =>
    if isDocumentMark c.rest then .error .malformed
    else
      let c := c.skip isBlank
      match c.lineEnd? with
      | some (d, after) => do
        let (more, last) ← quotedBreaks fuel after
        return (d :: more, last)
      | none => .ok ([], c)

def folded (first : Char) (more : List Char) : List Char :=
  if first != '\n' then first :: more else if more.isEmpty then [' '] else more

def simpleEscape? (c : Char) : Option Char :=
  match c with
  | '0' => some (Char.ofNat 0)
  | 'a' => some (Char.ofNat 7)
  | 'b' => some (Char.ofNat 8)
  | 't' => some '\t'
  | '\t' => some '\t'
  | 'n' => some '\n'
  | 'v' => some (Char.ofNat 11)
  | 'f' => some (Char.ofNat 12)
  | 'r' => some '\r'
  | 'e' => some (Char.ofNat 27)
  | ' ' => some ' '
  | '"' => some '"'
  | '\\' => some '\\'
  | '/' => some '/'
  | 'N' => some (Char.ofNat 0x85)
  | '_' => some (Char.ofNat 0xa0)
  | 'L' => some (Char.ofNat 0x2028)
  | 'P' => some (Char.ofNat 0x2029)
  | _ => none

/-- The number of digits of a numeric escape. -/
def escapeWidth? (c : Char) : Option Nat :=
  match c with
  | 'x' => some 2
  | 'u' => some 4
  | 'U' => some 8
  | _ => none

/-- The value of a hexadecimal digit. -/
def hexValue? (c : Char) : Option Nat :=
  if '0' ≤ c && c ≤ '9' then some (c.toNat - 48)
  else if 'a' ≤ c && c ≤ 'f' then some (c.toNat - 87)
  else if 'A' ≤ c && c ≤ 'F' then some (c.toNat - 55)
  else none

/-- The number that so many hexadecimal digits write. -/
def hexNumber? (width : Nat) (s : List Char) : Option Nat :=
  let ds := s.take width
  if ds.length < width then none
  else ds.foldl (fun n d ↦ do return (← n) * 16 + (← hexValue? d)) (some 0)

def character (n : Nat) : Except Fault Char :=
  if n < 0x110000 then
    .ok (if 0xd800 ≤ n && n < 0xe000 then Char.ofNat 0xfffd else Char.ofNat n)
  else if n < 0x80000000 then
    .error (.scalar (.unusable "chr() arg not in range(0x110000)"))
  else .error (.scalar .largeNumber)

/-- What an escape stands for, after its backslash. -/
def escape (fuel : Nat) (c : Cursor) : Except Fault (List Char × Cursor) :=
  match c.rest with
  | [] => .error .malformed
  | d :: rest =>
    match simpleEscape? d, escapeWidth? d with
    | some e, _ => .ok ([e], c.next)
    | none, some width =>
      match hexNumber? width rest with
      | some n => do return ([← character n], c.forward (width + 1))
      | none => .error .malformed
    | none, none =>
      match c.lineEnd? with
      | some (_, after) => quotedBreaks fuel after
      | none => .error .malformed

def quotedText (double : Bool) : Nat → Cursor → Except Fault (List Char × Cursor)
  | 0, _ => .error .malformed
  | fuel + 1, c =>
    match c.rest with
    | [] => .error .malformed
    | d :: rest => do
      if d == (if double then '"' else '\'') then
        if double || rest.head? != some '\'' then return ([], c.next)
        let (more, last) ← quotedText double fuel (c.forward 2)
        return ('\'' :: more, last)
      else if double && d == '\\' then
        let (s, after) ← escape fuel c.next
        let (more, last) ← quotedText double fuel after
        return (s ++ more, last)
      else if isBlank d || isBreak d then
        let (blanks, after) := c.span isBlank
        match after.lineEnd? with
        | some (first, below) =>
          let (breaks, start) ← quotedBreaks fuel below
          let (more, last) ← quotedText double fuel start
          return (folded first breaks ++ more, last)
        | none =>
          let (more, last) ← quotedText double fuel after
          return (blanks ++ more, last)
      else
        let (more, last) ← quotedText double fuel c.next
        return (d :: more, last)

/-- Whether a character ends a plain scalar that stands in a flow collection. -/
def endsInFlow (c : Char) : Bool :=
  ",?[]\x7b\x7d".toList.contains c

def isValueMark (inFlow : Bool) (after : List Char) : Bool :=
  endsWord after ||
    (inFlow && (after.head?.map fun d ↦ ",[]\x7b\x7d".toList.contains d).getD false)

/-- The characters of a plain scalar up to a blank or its end. -/
def plainRun (inFlow : Bool) : List Char → List Char
  | [] => []
  | c :: rest =>
    if isBlank c || isBreak c || (c == ':' && isValueMark inFlow rest) ||
        (inFlow && endsInFlow c) then []
    else c :: plainRun inFlow rest

/-- What stands between the lines of a plain scalar: the line ends, or none where the mark of a
document follows. -/
def plainBreaks : Nat → Cursor → Option (List Char) × Cursor
  | 0, c => (some [], c)
  | fuel + 1, c =>
    if isDocumentMark c.rest then (none, c)
    else
      let c := c.skip (· == ' ')
      match c.lineEnd? with
      | some (d, after) =>
        let (more, last) := plainBreaks fuel after
        (more.map (d :: ·), last)
      | none => (some [], c)

/-- The blanks after a run of a plain scalar as they count when it goes on, the place after them,
and whether they hold a line end. -/
def plainBlanks (fuel : Nat) (c : Cursor) : List Char × Cursor × Bool :=
  let (blanks, after) := c.span (· == ' ')
  match after.lineEnd? with
  | none => (blanks, after, false)
  | some (first, below) =>
    match plainBreaks fuel below with
    | (some more, last) => (folded first more, last, true)
    | (none, last) => ([], last, true)

/-- The text of a plain scalar in a block that is indented so far, after some blanks; the place
after it, and whether that is in another line. -/
def plainText (inFlow : Bool) (indent : Nat) : Nat → List Char → Bool → Cursor →
    List Char × Cursor × Bool
  | 0, _, crossed, c => ([], c, crossed)
  | fuel + 1, blanks, crossed, c =>
    let run := plainRun inFlow c.rest
    if c.sees '#' || run.isEmpty then ([], c, crossed)
    else
      let (next, after, below) := plainBlanks fuel (c.forward run.length)
      if next.isEmpty || after.sees '#' || (!inFlow && after.column < indent) then
        (blanks ++ run, after, below)
      else
        let (more, last, beyond) := plainText inFlow indent fuel next below after
        (blanks ++ run ++ more, last, beyond)

/-- What happens to the line ends at the end of a block. -/
inductive Chomp where
  | strip
  | clip
  | keep

/-- How a block treats the line ends at its end, by its sign. -/
def chomp? (s : List Char) : Option (Chomp × List Char) :=
  match s with
  | '+' :: rest => some (.keep, rest)
  | '-' :: rest => some (.strip, rest)
  | _ => none

/-- The indentation that the head of a block gives, from one to nine. -/
def increment? (s : List Char) : Option (Nat × List Char) :=
  match s with
  | c :: rest => if '0' ≤ c && c ≤ '9' then some (c.toNat - 48, rest) else none
  | [] => none

/-- The head of a block after its sign: how it ends, how far it is indented, and what follows. -/
def blockHead (s : List Char) : Chomp × Option Nat × List Char :=
  match chomp? s with
  | some (chomp, rest) =>
    match increment? rest with
    | some (n, rest) => (chomp, some n, rest)
    | none => (chomp, none, rest)
  | none =>
    match increment? s with
    | some (n, rest) =>
      match chomp? rest with
      | some (chomp, rest) => (chomp, some n, rest)
      | none => (.clip, some n, rest)
    | none => (.clip, none, s)

/-- The line ends before the first line of a block, and the farthest indentation of a blank line or
of that line. -/
def findIndent : Nat → Nat → Cursor → List Char × Nat × Cursor
  | 0, widest, c => ([], widest, c)
  | fuel + 1, widest, c =>
    let c := c.skip (· == ' ')
    let widest := max widest c.column
    match c.lineEnd? with
    | some (d, after) =>
      let (more, width, last) := findIndent fuel widest after
      (d :: more, width, last)
    | none => ([], widest, c)

/-- The line ends before the next line of a block that is indented so far; of that line no more than
the indentation is passed. -/
def blockBreaks (indent : Nat) : Nat → Cursor → List Char × Cursor
  | 0, c => ([], c)
  | fuel + 1, c =>
    let blanks := (c.rest.takeWhile (· == ' ')).length
    let c := c.forward (min blanks (indent - c.column))
    match c.lineEnd? with
    | some (d, after) =>
      let (more, last) := blockBreaks indent fuel after
      (d :: more, last)
    | none => ([], c)

/-- The lines of a block, after some line ends. -/
def blockLines (fold : Bool) (chomp : Chomp) (indent : Nat) :
    Nat → List Char → Cursor → List Char × Cursor
  | 0, _, c => ([], c)
  | fuel + 1, breaks, c =>
    let starts := !(c.rest.head?.map isBlank).getD false
    let (line, after) := c.span (!isBreak ·)
    let (ending, below) := match after.lineEnd? with
      | some (d, below) => ([d], below)
      | none => ([], after)
    let (next, start) := blockBreaks indent fuel below
    if start.column = indent && !start.rest.isEmpty then
      let flows := fold && ending == ['\n'] && starts && !(start.rest.head?.map isBlank).getD false
      let joint := if flows then (if next.isEmpty then [' '] else []) else ending
      let (more, last) := blockLines fold chomp indent fuel next start
      (breaks ++ line ++ joint ++ more, last)
    else
      let tail := match chomp with
        | .strip => []
        | .clip => ending
        | .keep => ending ++ next
      (breaks ++ line ++ tail, start)

/-- The text of a block in one that is indented so far, after the sign of the block. -/
def blockText (fold : Bool) (outer : Nat) (c : Cursor) : Except Fault (List Char × Cursor) := do
  let fuel := c.rest.length + 1
  let (chomp, increment, rest) := blockHead c.rest
  let c := c.forward (c.rest.length - rest.length)
  if increment == some 0 || !endsField rest then throw .malformed
  let c ← c.endLine
  let least := max 1 outer
  let (breaks, indent, start) := match increment with
    | some n =>
      let indent := least + n - 1
      let (breaks, start) := blockBreaks indent fuel c
      (breaks, indent, start)
    | none =>
      let (breaks, widest, start) := findIndent fuel 0 c
      (breaks, max least widest, start)
  if start.column = indent && !start.rest.isEmpty then
    return blockLines fold chomp indent fuel breaks start
  else
    match chomp with
    | .keep => return (breaks, start)
    | _ => return ([], start)

end SafeMarkdown.Yaml
