import SafeMarkdown.Markdown.Block.Container
import SafeMarkdown.Markdown.Block.Interrupt

/-!
# Reading blocks

Lines are read block by block; at each line the first rule that knows it says which block starts
there. Containers nest only so deep: what lies deeper is left out.

A definition is a label in brackets, a colon, a destination and perhaps a title, with line ends
between them. It ends with its line. A title that has other text behind it is none, and then the
definition ends before it.
-/

namespace SafeMarkdown.Markdown

/-- A label after its opening bracket, and what follows its closing one. -/
def definedLabel? : List Char → Option (List Char × List Char)
  | [] => none
  | ']' :: rest => some ([], rest)
  | '\\' :: c :: rest => (definedLabel? rest).map fun (s, after) ↦ ('\\' :: c :: s, after)
  | c :: rest =>
    if c == '[' then none else (definedLabel? rest).map fun (s, after) ↦ (c :: s, after)

/-- Whether a line ends here, blanks apart. -/
def endsLine (s : List Char) : Bool :=
  match dropBlanks s with
  | [] => true
  | c :: _ => c == '\n'

/-- The title after a destination and the text after the title, which ends its line. -/
def definedTitle? (s : List Char) : Option (List Char × List Char) := do
  let blanks := s.takeWhile isGap
  let rest := s.drop blanks.length
  let (title, after) ← rawTitle? rest
  if blanks.isEmpty && !title.contains '\n' then none
  else if endsLine after then return (unescape title, dropBlanks after)
  else none

/-- Whether what follows a destination is a title without characters and then more text; then there
is no definition. -/
def hasSpoiledTitle (s : List Char) : Bool :=
  let blanks := s.takeWhile isGap
  match rawTitle? (s.drop blanks.length) with
  | some ([], after) => !blanks.isEmpty && !endsLine after
  | _ => false

/-- The first line of a text with its line end, and the text after it. -/
def splitLine (s : List Char) : List Char × List Char :=
  let line := s.takeWhile (· != '\n')
  match s.drop line.length with
  | [] => (line, [])
  | c :: rest => (line ++ [c], rest)

/-- The definition that a text starts with, and the text after it. -/
def readDefinition? (s : List Char) : Option (Definition × List Char) := do
  guard (s.head? == some '[')
  let (label, afterLabel) ← definedLabel? (s.drop 1)
  guard (afterLabel.head? == some ':')
  let (line, below) := splitLine ((afterLabel.drop 1).dropWhile isGap)
  let (destination, afterDestination) ← destination? line
  let href ← link? destination
  let key := labelKey label
  guard !key.isEmpty
  let rest := afterDestination ++ below
  if afterDestination.isEmpty then return (⟨key, href, []⟩, '\n' :: below)
  else if hasSpoiledTitle rest then none
  else match definedTitle? rest with
    | some (title, after) => return (⟨key, href, title⟩, after)
    | none =>
      if endsLine afterDestination then return (⟨key, href, []⟩, dropBlanks rest) else none

def definition? (scope : Scope) : Rule
  | [], _ => none
  | l :: rest, _ =>
    if scope.isCode l || l.body.head? != some '[' then none
    else
      let text := l.bodyAndEnd ++
        (rest.take (textExtent scope false rest)).flatMap Line.bodyAndEnd
      (readDefinition? text).map fun (d, after) ↦
        let taken := text.take (text.length - after.length)
        (.definition d, 1 + taken.count '\n')

def firstRule (rules : List Rule) : Rule := fun lines limit ↦
  rules.findSome? fun rule ↦ rule lines limit

/-- The rules of a dialect, given how quotations and footnotes and how items are read. -/
def rulesOf (read readItem : Reader) (scope : Scope) : Rule :=
  firstRule <|
    if scope.dialect.core then
      [table? scope (interruptsQuote scope), code? scope, fenced? scope, quote? read scope,
        rule? scope, list? readItem scope, footnote? read scope, definition? scope, markup? scope,
        heading? scope, underlined? scope, paragraph? scope]
    else [footnote? read scope, paragraph? scope]

def blankLines (lines : List Line) : Nat :=
  (lines.takeWhile Line.isEmpty).length

/-- Reads blocks, at most so many. A blank line after a block parts it from the next. -/
def readSteps (rule : Rule) (scope : Scope) :
    Nat → Bool → List Line → Nat → Blocks
  | 0, _, _, _ => ⟨[], 0, true⟩
  | fuel + 1, gap, lines, limit =>
    let blanks := blankLines lines
    let lines := lines.drop blanks
    let left := limit - blanks
    let here := (lines.head?.filter (!scope.isOutside ·)).bind fun _ ↦
      if 0 < left then rule lines left else none
    match here with
    | none => ⟨[], blanks, true⟩
    | some (b, n) =>
      let before := n ≤ left && isGapAt lines (n - 1)
      let after := n < left && isGapAt lines n
      let used := if after then n + 1 else n
      let more := readSteps rule scope fuel (gap || before || after) (lines.drop used) (left - used)
      let tight := if more.content.isEmpty then !gap else more.tight
      ⟨b :: more.content, blanks + used + more.used, tight⟩

/-- The blocks of a container in which containers may nest so deeply: a list counts twice, for
itself and for its items. -/
def readBlocks : Nat → Reader
  | 0, scope, lines, limit =>
    let blanks := blankLines lines
    let inside := (lines.drop blanks).head?.any (!scope.isOutside ·)
    ⟨[], if blanks < limit && inside then limit else blanks, true⟩
  | 1, scope, lines, limit =>
    readSteps (rulesOf (readBlocks 0) (readBlocks 0) scope) scope (limit + 1) false lines limit
  | room + 2, scope, lines, limit =>
    readSteps (rulesOf (readBlocks (room + 1)) (readBlocks room) scope) scope (limit + 1) false
      lines limit

def blocksOf (dialect : Dialect) (s : List Char) : List Block :=
  let lines := linesOf s
  (readBlocks dialect.nesting { dialect } lines lines.length).content

end SafeMarkdown.Markdown
