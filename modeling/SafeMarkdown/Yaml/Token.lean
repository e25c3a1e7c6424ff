import SafeMarkdown.Text.Bytes
import SafeMarkdown.Yaml.Scalar

/-!
# Tokens of a YAML text

Indentation opens and closes blocks, so the start and the end of a block are tokens that stand for
no characters. A key that nothing announces is known only by the colon behind it: its token, and
that of the block it starts, are put before what has been read already.
-/

namespace SafeMarkdown.Yaml

inductive Directive where
  | version (major : Nat)
  | tag (handle start : String)
  | unknown

inductive Token where
  | directive (d : Directive)
  | documentStart
  | documentEnd
  | streamEnd
  | blockSequence
  | blockMapping
  | blockEnd
  | flowSequence
  | flowSequenceEnd
  | flowMapping
  | flowMappingEnd
  | blockEntry
  | flowEntry
  | key
  | value
  | reference (name : String)
  | anchor (name : String)
  | tag (handle : Option String) (suffix : String)
  | scalar (text : List Char) (plain : Bool)

/-- A place where a key may have started that nothing announces. -/
structure PossibleKey where
  /-- The number of tokens before it. -/
  place : Nat
  /-- Whether it must turn out to be one. -/
  required : Bool
  index : Nat
  line : Nat
  column : Nat

/-- The state of reading tokens. -/
structure Scan where
  cursor : Cursor
  tokens : Array Token := #[]
  /-- In how many flow collections the place is. -/
  flow : Nat := 0
  /-- The column of the innermost block, and those of the blocks around it; -1 outside of all. -/
  indent : Int := -1
  outer : List Int := []
  allowsKey : Bool := true
  /-- The possible keys, by the number of flow collections around them. -/
  keys : List (Nat × PossibleKey) := []

namespace Scan

def push (s : Scan) (t : Token) : Scan :=
  { s with tokens := s.tokens.push t }

def insert (s : Scan) (place : Nat) (t : Token) : Scan :=
  { s with tokens := (s.tokens.extract 0 place).push t ++ s.tokens.extract place s.tokens.size }

def take (s : Scan) (n : Nat) (t : Token) : Scan :=
  { s.push t with cursor := s.cursor.forward n }

def key? (s : Scan) : Option PossibleKey :=
  s.keys.lookup s.flow

/-- Gives up the possible key in the innermost collection. -/
def dropKey (s : Scan) : Except Fault Scan :=
  match s.key? with
  | some k =>
    if k.required then .error .malformed
    else .ok { s with keys := s.keys.filter (·.1 != s.flow) }
  | none => .ok s

/-- Notes that a key may start here. -/
def noteKey (s : Scan) : Except Fault Scan := do
  if !s.allowsKey then return s
  let c := s.cursor
  let required := s.flow = 0 && s.indent == c.column
  let s ← s.dropKey
  return { s with keys := (s.flow, ⟨s.tokens.size, required, c.index, c.line, c.column⟩) :: s.keys }

/-- Whether a possible key is too far back: it is in one line with its colon, and not longer than
1024 characters. -/
def isStale (s : Scan) (k : PossibleKey) : Bool :=
  k.line != s.cursor.line || k.index + 1024 < s.cursor.index

def dropStaleKeys (s : Scan) : Except Fault Scan :=
  if s.keys.any fun (_, k) ↦ s.isStale k && k.required then .error .malformed
  else .ok { s with keys := s.keys.filter fun (_, k) ↦ !s.isStale k }

def closeBlocks (column : Int) : List Int → Scan → Scan
  | [], s => s
  | i :: rest, s =>
    if column < s.indent then
      closeBlocks column rest ({ s with indent := i, outer := rest }.push .blockEnd)
    else s

/-- Closes the blocks that are indented more than to a column; in flow collections indentation does
not count. -/
def unwind (s : Scan) (column : Int) : Scan :=
  if s.flow = 0 then closeBlocks column s.outer s else s

/-- Opens a block at a column, unless the innermost is there already: whether it did. -/
def openBlock (s : Scan) (column : Nat) : Scan × Bool :=
  if s.indent < column then ({ s with indent := column, outer := s.indent :: s.outer }, true)
  else (s, false)

def openBlockWith (s : Scan) (t : Token) : Except Fault Scan :=
  if s.flow != 0 then .ok s
  else if !s.allowsKey then .error .malformed
  else
    let (s, opened) := s.openBlock s.cursor.column
    .ok (if opened then s.push t else s)

end Scan

/-- Passes blanks, comments and line ends; behind a line end a key may start. -/
def toNextToken : Nat → Scan → Scan
  | 0, s => s
  | fuel + 1, s =>
    let c := (s.cursor.skip (· == ' ')).skipComment
    match c.lineEnd? with
    | some (_, after) =>
      toNextToken fuel { s with cursor := after, allowsKey := s.allowsKey || s.flow = 0 }
    | none => { s with cursor := c }

/-- The name after the sign of an anchor or an alias. -/
def anchorName (c : Cursor) : Except Fault (String × Cursor) :=
  let (name, after) := c.next.span isNameChar
  let ended := endsWord after.rest ||
    (after.peek.map fun d ↦ "?:,]\x7d%@`".toList.contains d).getD false
  if name.isEmpty || !ended then .error .malformed else .ok (String.ofList name, after)

def isTagChar (c : Char) : Bool :=
  c.isAlphanum || "-;/?:@&=+$,_.!~*'()[]".toList.contains c

/-- The bytes that a run of escapes in a tag writes. -/
def tagBytes : Nat → List Char → Except Fault (List UInt8 × List Char)
  | 0, s => .ok ([], s)
  | fuel + 1, s =>
    match s with
    | '%' :: rest => do
      match hexNumber? 2 rest with
      | some n =>
        let (more, after) ← tagBytes fuel (rest.drop 2)
        return (UInt8.ofNat n :: more, after)
      | none => throw .malformed
    | _ => .ok ([], s)

def tagText : Nat → List Char → Except Fault (List Char × List Char)
  | 0, s => .ok ([], s)
  | fuel + 1, s =>
    match s with
    | [] => .ok ([], [])
    | c :: rest =>
      if c == '%' then do
        let (bytes, after) ← tagBytes s.length s
        match Text.decodeUtf8 bytes with
        | .ok cs =>
          let (more, last) ← tagText fuel after
          return (cs ++ more, last)
        | .error _ => throw .malformed
      else if isTagChar c then do
        let (more, last) ← tagText fuel rest
        return (c :: more, last)
      else .ok ([], s)

/-- The characters of a tag, of which there is at least one. -/
def tagUri (c : Cursor) : Except Fault (String × Cursor) := do
  let (text, rest) ← tagText c.rest.length c.rest
  let read := c.rest.length - rest.length
  if read = 0 then throw .malformed
  return (String.ofList text, c.forward read)

/-- The handle of a tag: a name between exclamation marks, or one exclamation mark before a
space. -/
def tagHandle (c : Cursor) : Except Fault (String × Cursor) :=
  match c.rest with
  | '!' :: rest =>
    let name := rest.takeWhile isNameChar
    if rest.head? == some ' ' then .ok ("!", c.next)
    else if rest[name.length]? == some '!' then
      .ok (String.ofList ('!' :: name ++ ['!']), c.forward (name.length + 2))
    else .error .malformed
  | _ => .error .malformed

/-- A tag: its handle and the rest of it. -/
def readTag (c : Cursor) : Except Fault (Option String × String × Cursor) := do
  let (handle, suffix, after) ←
    match c.rest.drop 1 with
    | '<' :: _ => do
      let (suffix, after) ← tagUri (c.forward 2)
      if !after.sees '>' then throw .malformed
      pure (none, suffix, after.next)
    | rest =>
      if endsWord rest then pure (none, "!", c.next)
      else if (rest.takeWhile fun d ↦ d != ' ' && !isBreak d).contains '!' then do
        let (handle, after) ← tagHandle c
        let (suffix, last) ← tagUri after
        pure (some handle, suffix, last)
      else do
        let (suffix, last) ← tagUri c.next
        pure (some "!", suffix, last)
  if endsField after.rest then return (handle, suffix, after) else throw .malformed

def directiveNumber (c : Cursor) : Except Fault (Nat × Cursor) :=
  let (ds, after) := c.span Char.isDigit
  if ds.isEmpty then .error .malformed
  else .ok (ds.foldl (fun n d ↦ n * 10 + (d.toNat - 48)) 0, after)

def versionDirective (c : Cursor) : Except Fault (Directive × Cursor) := do
  let (major, after) ← directiveNumber (c.skip (· == ' '))
  if !after.sees '.' then throw .malformed
  let (_, last) ← directiveNumber after.next
  if endsField last.rest then return (.version major, last) else throw .malformed

/-- The handle that a directive gives. -/
def tagDirective (c : Cursor) : Except Fault (Directive × Cursor) := do
  let (handle, after) ← tagHandle (c.skip (· == ' '))
  if !after.sees ' ' then throw .malformed
  let (start, last) ← tagUri (after.skip (· == ' '))
  if endsField last.rest then return (.tag handle start, last) else throw .malformed

def readDirective (c : Cursor) : Except Fault (Directive × Cursor) := do
  let (name, after) := c.next.span isNameChar
  if name.isEmpty || !endsField after.rest then throw .malformed
  let (d, last) ←
    match String.ofList name with
    | "YAML" => versionDirective after
    | "TAG" => tagDirective after
    | _ => pure (.unknown, after.skip (!isBreak ·))
  return (d, ← last.endLine)

/-- Whether a plain scalar may start here. -/
def startsPlain (inFlow : Bool) (s : List Char) : Bool :=
  match s with
  | [] => false
  | c :: rest =>
    let special := isBlank c || isBreak c || "-?:,[]\x7b\x7d#&*!|>'\"%@`".toList.contains c
    !special || (!endsWord rest && (c == '-' || (!inFlow && (c == '?' || c == ':'))))

namespace Scan

def pushContent (s : Scan) (t : Token) (after : Cursor) : Except Fault Scan := do
  let s ← s.noteKey
  return { s.push t with cursor := after, allowsKey := false }

def pushMark (s : Scan) (t : Token) (after : Cursor) : Except Fault Scan := do
  let s ← (s.unwind (-1)).dropKey
  return { s.push t with cursor := after, allowsKey := false }

def openFlow (s : Scan) (t : Token) : Except Fault Scan := do
  let s ← s.noteKey
  return { s.take 1 t with flow := s.flow + 1, allowsKey := true }

def closeFlow (s : Scan) (t : Token) : Except Fault Scan := do
  let s ← s.dropKey
  if s.flow = 0 then throw .malformed
  return { s.take 1 t with flow := s.flow - 1, allowsKey := false }

/-- The sign of an item in a block. -/
def readEntry (s : Scan) : Except Fault Scan := do
  let s ← s.openBlockWith .blockSequence
  let s ← { s with allowsKey := true }.dropKey
  return s.take 1 .blockEntry

def readKeySign (s : Scan) : Except Fault Scan := do
  let s ← s.openBlockWith .blockMapping
  let s ← { s with allowsKey := s.flow = 0 }.dropKey
  return s.take 1 .key

def readValueSign (s : Scan) : Except Fault Scan :=
  match s.key? with
  | some k => do
    let s := { s with keys := s.keys.filter (·.1 != s.flow), allowsKey := false }.insert k.place .key
    let (s, opened) := if s.flow = 0 then s.openBlock k.column else (s, false)
    return (if opened then s.insert k.place .blockMapping else s).take 1 .value
  | none => do
    let s ← s.openBlockWith .blockMapping
    let s ← { s with allowsKey := s.flow = 0 }.dropKey
    return s.take 1 .value

def readBlock (s : Scan) (fold : Bool) : Except Fault Scan := do
  let s ← { s with allowsKey := true }.dropKey
  let (text, after) ← blockText fold (s.indent + 1).toNat s.cursor.next
  return { s.push (.scalar text false) with cursor := after }

def readQuoted (s : Scan) (double : Bool) : Except Fault Scan := do
  let (text, after) ← quotedText double (s.cursor.rest.length + 1) s.cursor.next
  s.pushContent (.scalar text false) after

/-- A plain scalar. Behind one that ends in another line a key may start. -/
def readPlain (s : Scan) : Except Fault Scan := do
  let (text, after, below) :=
    plainText (s.flow != 0) (s.indent + 1).toNat (s.cursor.rest.length + 1) [] false s.cursor
  let s ← s.pushContent (.scalar text true) after
  return { s with allowsKey := below }

def readToken (s : Scan) (d : Char) (rest : List Char) : Except Fault Scan := do
  let c := s.cursor
  let inFlow := s.flow != 0
  let atStart := c.column = 0
  if d == '%' && atStart then
    let s ← (s.unwind (-1)).dropKey
    let (directive, after) ← readDirective c
    return { s.push (.directive directive) with cursor := after, allowsKey := false }
  if atStart && isMark "---" c.rest then s.pushMark .documentStart (c.forward 3)
  else if atStart && isMark "..." c.rest then s.pushMark .documentEnd (c.forward 3)
  else if d == '[' then s.openFlow .flowSequence
  else if d == '\x7b' then s.openFlow .flowMapping
  else if d == ']' then s.closeFlow .flowSequenceEnd
  else if d == '\x7d' then s.closeFlow .flowMappingEnd
  else if d == ',' then
    let s ← { s with allowsKey := true }.dropKey
    return s.take 1 .flowEntry
  else if d == '-' && endsWord rest then s.readEntry
  else if d == '?' && (inFlow || endsWord rest) then s.readKeySign
  else if d == ':' && (inFlow || endsWord rest) then s.readValueSign
  else if d == '*' then
    let (name, after) ← anchorName c
    s.pushContent (.reference name) after
  else if d == '&' then
    let (name, after) ← anchorName c
    s.pushContent (.anchor name) after
  else if d == '!' then
    let (handle, suffix, after) ← readTag c
    s.pushContent (.tag handle suffix) after
  else if d == '|' && !inFlow then s.readBlock false
  else if d == '>' && !inFlow then s.readBlock true
  else if d == '\'' then s.readQuoted false
  else if d == '"' then s.readQuoted true
  else if startsPlain inFlow c.rest then s.readPlain
  else throw .malformed

/-- Reads tokens up to the end of the text. -/
def readAll : Nat → Scan → Except Fault (Array Token)
  | 0, _ => .error .malformed
  | fuel + 1, s => do
    let s ← (toNextToken (s.cursor.rest.length + 1) s).dropStaleKeys
    let s := s.unwind s.cursor.column
    match s.cursor.rest with
    | [] =>
      let s ← (s.unwind (-1)).dropKey
      return (s.push .streamEnd).tokens
    | d :: rest =>
      let s ← s.readToken d rest
      readAll fuel s

end Scan

/-- Whether a text may hold a character. -/
def isPrintable (c : Char) : Bool :=
  let n := c.toNat
  n == 0x9 || n == 0xa || n == 0xd || (0x20 ≤ n && n ≤ 0x7e) || n == 0x85 ||
    (0xa0 ≤ n && n ≤ 0xd7ff) || (0xe000 ≤ n && n ≤ 0xfffd) || 0x10000 ≤ n

/-- The tokens of a text. A mark of the byte order at its start is passed. -/
def tokensOf (s : List Char) : Except Fault (List Token) :=
  if !s.all isPrintable then .error .malformed
  else
    let c : Cursor := { rest := s }
    let c := if c.peek == some (Char.ofNat 0xfeff) then c.next else c
    (Scan.readAll (s.length + 1) { cursor := c }).map Array.toList

end SafeMarkdown.Yaml
