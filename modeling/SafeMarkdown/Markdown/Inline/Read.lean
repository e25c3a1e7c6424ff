import SafeMarkdown.Markdown.Inline.Cursor

/-!
# Links, images and footnotes in a text

What stands in brackets is looked ahead to its end before it is read. The end of a bracket is where
as many have closed as have opened, code, markup and whole links apart; a link holds no other link.
-/

namespace SafeMarkdown.Markdown

/-- What stands in parentheses behind the brackets of a link: whether it ends as it should, where
reading went on to, and the destination and the title. -/
structure Target where
  closed : Bool
  pos : Nat
  href : List Char
  title : List Char

/-- The title at a position, if something parts it from what is before: where it ends, with the gaps
behind it, and its text. -/
def titleAt? (src : Source) (parted : Bool) (i stop : Nat) : Option (Nat × List Char) :=
  if !parted then none
  else
    let rest := src.slice i stop
    (rawTitle? rest).map fun (title, after) ↦
      (src.skipGaps (i + (rest.length - after.length)) stop, unescape title)

/-- Reads what stands in parentheses, from behind the first one; none if the text ends there. -/
def target? (src : Source) (i stop : Nat) : Option Target :=
  let i := src.skipGaps i stop
  if stop ≤ i then none
  else
    let rest := src.slice i stop
    let (href, next) := match destination? rest with
      | some (d, after) =>
        match link? d with
        | some href => (href, i + (rest.length - after.length))
        | none => ([], i)
      | none => ([], i)
    let behind := src.skipGaps next stop
    let (pos, title) := (titleAt? src (behind != next) behind stop).getD (behind, [])
    some ⟨pos < stop && src.has pos ')', pos, href, title⟩

def Source.definition? (src : Source) (label : List Char) : Option Definition :=
  let key := labelKey label
  src.definitions.find? (·.label == key)

def targetAttributes (name : String) (href title : List Char) : Fields :=
  (name, .str (String.ofList href)) ::
    if title.isEmpty then [] else [("title", .str (String.ofList title))]

/-- The answer of a rule: whether it knew what it saw, and the cursor. -/
abbrev Answer := Except Failure (Bool × Cursor)

/-- The answer of a rule that leaves no trace when it does not know what it sees. -/
def answer (c : Cursor) : Option Cursor → Answer
  | some next => .ok (true, next)
  | none => .ok (false, c)

mutual

/-- Goes over whatever starts at the cursor. -/
def skip (src : Source) : Nat → Cursor → Except Failure Cursor
  | 0, c => .ok (c.goto (c.pos + 1))
  | fuel + 1, c =>
    match c.ends[c.pos]? with
    | some i => .ok (c.goto i)
    | none => do
      let (known, next) ←
        if c.depth < src.dialect.nesting then readOne src fuel true { c with depth := c.depth + 1 }
        else pure (false, c.goto c.stop)
      let i := if known then next.pos else next.pos + 1
      return { next with pos := i, depth := c.depth, ends := next.ends.insert c.pos i }
termination_by structural n => n

/-- Looks for the bracket that closes so many, from the cursor on; `single` refuses brackets that
belong to a link. -/
def findClosing (src : Source) (single : Bool) :
    Nat → Nat → Cursor → Except Failure (Option Nat × Cursor)
  | 0, _, c => .ok (none, c)
  | fuel + 1, level, c =>
    if c.stop ≤ c.pos then .ok (none, c)
    else do
      let closing := src.has c.pos ']'
      let level := if closing then level - 1 else level
      if closing && level = 0 then return (some c.pos, c)
      let next ← skip src fuel c
      if !src.has c.pos '[' then findClosing src single fuel level next
      else if next.pos = c.pos + 1 then findClosing src single fuel (level + 1) next
      else if single then return (none, next)
      else findClosing src single fuel level next
termination_by structural n => n

/-- Looks for the end of the brackets that open at a position. -/
def labelEnd (src : Source) (single : Bool) :
    Nat → Nat → Cursor → Except Failure (Option Nat × Cursor)
  | 0, _, c => .ok (none, c)
  | fuel + 1, start, c => do
    let (found, next) ← findClosing src single fuel 1 (c.goto (start + 1))
    return (found, next.goto c.pos)
termination_by structural n => n

/-- The definition that a link or an image refers to, from behind its first brackets: by a label in
more brackets or else by its own text. -/
def reference (src : Source) : Nat → List Char → Nat → Nat → Cursor →
    Except Failure (Option (Definition × Nat) × Cursor)
  | 0, _, _, _, c => .ok (none, c)
  | fuel + 1, text, behind, i, c => do
    if src.definitions.isEmpty then return (none, c)
    let (found, c) ←
      if i < c.stop && src.has i '[' then labelEnd src false fuel i c else pure (none, c)
    let (label, next) := match found with
      | some stop => (src.slice (i + 1) stop, stop + 1)
      | none => ([], behind)
    let label := if label.isEmpty then text else label
    return ((src.definition? label).map (·, next), c)
termination_by structural n => n

def readLink (src : Source) (silent : Bool) : Nat → Cursor → Answer
  | 0, c => .ok (false, c)
  | fuel + 1, c => do
    let (found, c) ← labelEnd src true fuel c.pos c
    match found with
    | none => return (false, c)
    | some stop =>
      let text := src.slice (c.pos + 1) stop
      let direct := stop + 1 < c.stop && src.has (stop + 1) '('
      let target := if direct then target? src (stop + 2) c.stop else none
      if direct && target.isNone then return (false, c)
      let (result, c) ← match target with
        | some t =>
          if t.closed then pure (some (t.href, t.title, t.pos + 1), c)
          else do
            let (d, c) ← reference src fuel text (stop + 1) (t.pos + 1) c
            pure (d.map fun (d, next) ↦ (d.href, d.title, next), c)
        | none => do
          let (d, c) ← reference src fuel text (stop + 1) (stop + 1) c
          pure (d.map fun (d, next) ↦ (d.href, d.title, next), c)
      match result with
      | none => return (false, c)
      | some (href, title, next) =>
        if silent then return (true, c.goto next)
        let outer := c.flush
        let inner ← readAll src fuel
          { outer with pos := c.pos + 1, stop, pieces := [], depth := c.depth + 1 }
        let tokens := Token.opening "link_open" "a" (targetAttributes "href" href title) ::
          resolve inner.pieces.reverse ++ [Token.closing "link_close" "a"]
        return (true, { inner with
          pos := next, stop := c.stop, depth := c.depth, pieces := .tokens tokens :: outer.pieces })
termination_by structural n => n

/-- An image. What stands in its brackets is read for the footnotes in it. -/
def readImage (src : Source) (silent : Bool) : Nat → Cursor → Answer
  | 0, c => .ok (false, c)
  | fuel + 1, c => do
    if !src.has (c.pos + 1) '[' then return (false, c)
    let (found, c) ← labelEnd src false fuel (c.pos + 1) c
    match found with
    | none => return (false, c)
    | some stop =>
      let text := src.slice (c.pos + 2) stop
      let (result, c) ←
        if stop + 1 < c.stop && src.has (stop + 1) '(' then
          match target? src (stop + 2) c.stop with
          | some t => pure (if t.closed then some (t.href, t.title, t.pos + 1) else none, c)
          | none => pure (none, c)
        else do
          let (d, c) ← reference src fuel text (stop + 1) (stop + 1) c
          pure (d.map fun (d, next) ↦ (d.href, d.title, next), c)
      match result with
      | none => return (false, c)
      | some (href, title, next) =>
        if silent then return (true, c.goto next)
        let (_, notes) ← readPart src fuel text c.notes
        let t : Token := { type := "image", tag := "img", content := String.ofList text
                           attrs := targetAttributes "src" href title }
        return (true, { c.pushToken false t with pos := next, notes })
termination_by structural n => n

/-- A footnote in the text. -/
def readNote (src : Source) (silent : Bool) : Nat → Cursor → Answer
  | 0, c => .ok (false, c)
  | fuel + 1, c => do
    if c.stop ≤ c.pos + 2 || !src.has (c.pos + 1) '[' then return (false, c)
    let (found, c) ← labelEnd src false fuel (c.pos + 1) c
    match found with
    | none => return (false, c)
    | some stop =>
      if silent then return (true, c.goto (stop + 1))
      let text := src.slice (c.pos + 2) stop
      let n := c.notes.notes.length
      let (tokens, notes) ← readPart src fuel text c.notes
      let notes := notes.place n (.inline (String.ofList text) tokens)
      let c := c.pushToken false (Notes.referenceToken n none)
      return (true, { c with pos := stop + 1, notes })
termination_by structural n => n

/-- What starts at the cursor, unless it is plain text that nothing is known of. -/
def readOne (src : Source) : Nat → Bool → Cursor → Answer
  | 0, _, c => .ok (false, c)
  | fuel + 1, silent, c =>
    match src.at? c.pos, src.dialect.core with
    | none, _ => .ok (false, c)
    | some '^', _ => readNote src silent fuel c
    | some '[', core => do
      let (known, c) ← if core then readLink src silent fuel c else pure (false, c)
      if known then return (true, c)
      match ← readNoteReference src silent c with
      | some next => return (true, next)
      | none => return (false, c)
    | some '\n', true => .ok (true, readLineEnd src silent c)
    | some '\\', true => answer c (readEscape src silent c)
    | some '`', true => .ok (true, readTicks src silent c)
    | some '~', true =>
      answer c (if src.dialect.strikethrough && !silent then readTildes src c else none)
    | some '*', true => answer c (if silent then none else some (readEmphasis src '*' c))
    | some '_', true => answer c (if silent then none else some (readEmphasis src '_' c))
    | some '!', true => readImage src silent fuel c
    | some '<', true => answer c ((readAddress src silent c).or (readMarkup src silent c))
    | some '&', true => answer c (readEntity src silent c)
    | some d, _ => answer c (if isSpecial d then none else readText src silent c)
termination_by structural n => n

def readAll (src : Source) : Nat → Cursor → Except Failure Cursor
  | 0, c => .ok c.flush
  | fuel + 1, c =>
    if c.stop ≤ c.pos then .ok c.flush
    else do
      let (known, next) ←
        if c.depth < src.dialect.nesting then readOne src fuel false c else pure (false, c)
      if known then readAll src fuel next
      else readAll src fuel { next.write false (src.slice c.pos (c.pos + 1)) with pos := c.pos + 1 }
termination_by structural n => n

def readPart (src : Source) : Nat → List Char → Notes → Except Failure (List Token × Notes)
  | 0, _, notes => .ok ([], notes)
  | fuel + 1, s, notes => do
    let chars := s.toArray
    let c ← readAll { src with chars } fuel { stop := chars.size, notes }
    return (resolve c.pieces.reverse, c.notes)
termination_by structural n => n

end

/-- How many steps reading a text may take, one inside the other. -/
def stepBound (s : List Char) : Nat :=
  16 * (s.length + 2)

def readInline (dialect : Dialect) (definitions : List Definition) (s : List Char) (notes : Notes) :
    Except Failure (List Token × Notes) :=
  readPart { dialect, definitions, chars := #[] } (stepBound s) s notes

end SafeMarkdown.Markdown
