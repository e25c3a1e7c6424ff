import SafeMarkdown.Markdown.Block.Interrupt

/-!
# Blocks with blocks inside

Quotations, lists and footnotes. Each makes its lines into lines of its own, as its content sees
them, and has them read. A quotation takes in lines that only continue its last paragraph; an item
and a footnote take what is indented as far as their content.
-/

namespace SafeMarkdown.Markdown

/-- A line of a quotation without its mark, and without one space after the mark. A tab there is
kept when it is wider than one column. -/
def unquote (l : Line) : Line :=
  let start := l.indent.toNat + 1
  let rest := l.body.drop 1
  let narrow := rest.head? == some '\t' && (l.base + start) % 4 == 3
  let wide := rest.head? == some '\t' && !narrow
  let blank := rest.head? == some ' ' || narrow
  let inner := if blank then rest.drop 1 else rest
  let origin := if blank then start + 1 else start
  let lead := leadingBlanks inner
  let column := columnAfter (if wide then l.base + 1 else l.base) origin lead
  { lead, body := dropBlanks inner, indent := (column - origin : Nat),
    base := if blank || wide then start + 1 else start, ended := l.ended }

/-- The lines of a quotation after its first, and whether another block ends it. -/
def quotedLines (scope : Scope) (lastEmpty : Bool) : List Line → List Line × Bool
  | [] => ([], false)
  | l :: rest =>
    if l.isEmpty then ([], false)
    else if l.body.head? == some '>' && !scope.isOutside l then
      let inner := unquote l
      let (more, ended) := quotedLines scope inner.isEmpty rest
      (inner :: more, ended)
    else if lastEmpty then ([], false)
    else if interruptsQuote scope l then ([], true)
    else
      let (more, ended) := quotedLines scope false rest
      ({ l with indent := -1 } :: more, ended)

def quote? (read : Reader) (scope : Scope) : Rule
  | [], _ => none
  | l :: rest, limit =>
    if !isQuoteLine scope l then none
    else
      let first := unquote l
      let (more, ended) := quotedLines scope first.isEmpty (rest.take (limit - 1))
      let own := first :: more
      let seen := if ended then own else own ++ rest.drop more.length
      let inner := read { scope with indent := 0 } seen own.length
      some (.quote inner.content, inner.used)

/-- The first line of an item as its content sees it, and the columns by which that is indented. -/
def itemStart (l : Line) (m : ListMark) : Line × Nat :=
  let start := l.indent.toNat + m.width
  let after := l.body.drop m.width
  let blanks := leadingBlanks after
  let column := columnAfter l.base start blanks
  let body := dropBlanks after
  let width := if body.isEmpty || 4 < column - start then 1 else column - start
  ({ l with lead := l.lead ++ l.body.take m.width ++ blanks, body, indent := (column : Nat) },
    start + width)

/-- Whether the line at a place is blank or missing. -/
def isGapAt (lines : List Line) (i : Nat) : Bool :=
  match lines[i]? with
  | some l => l.isEmpty
  | none => true

/-- The content of the item at the start of lines. An item that starts with two blank lines is
empty. -/
def readItem (read : Reader) (scope : Scope) (m : ListMark) (lines : List Line) (limit : Nat) :
    Blocks :=
  match lines with
  | [] => ⟨[], limit, true⟩
  | l :: rest =>
    let (first, indent) := itemStart l m
    if first.isEmpty && isGapAt rest 0 then ⟨[], min 2 limit, true⟩
    else read { scope with indent, listIndent := some scope.indent } (first :: rest) limit

def nextMark? (scope : Scope) (m : ListMark) : List Line → Option ListMark
  | [] => none
  | l :: _ =>
    if scope.isOutside l || scope.isCode l || startsMarked scope l then none
    else match listMark? l.body with
      | some next =>
        if next.number.isSome == m.number.isSome && next.sign == m.sign then some next else none
      | none => none

/-- The items of a list, at most so many: their content, the lines that they take, and whether no
blank line parts them. -/
def readItems (read : Reader) (scope : Scope) :
    Nat → ListMark → Bool → List Line → Nat → List Block × Nat × Bool
  | 0, _, _, _, _ => ([], 0, true)
  | fuel + 1, m, gapBefore, lines, limit =>
    let inner := readItem read scope m lines limit
    let tight := inner.tight && !gapBefore
    let gap := 1 < inner.used && isGapAt lines (inner.used - 1)
    let rest := lines.drop inner.used
    match if inner.used < limit then nextMark? scope m rest else none with
    | none => ([.item inner.content], inner.used, tight)
    | some next =>
      let (items, used, allTight) :=
        readItems read scope fuel next gap rest (limit - inner.used)
      (.item inner.content :: items, inner.used + used, tight && allTight)

def list? (read : Reader) (scope : Scope) : Rule
  | [], _ => none
  | l :: rest, limit =>
    (listLine? scope l).map fun m ↦
      let (items, used, tight) := readItems read scope limit m false (l :: rest) limit
      (.list m.number tight items, used)

def footnote? (read : Reader) (scope : Scope) : Rule
  | [], _ => none
  | l :: rest, limit =>
    (footnoteLine? scope l).map fun (label, after) ↦
      let start := l.indent.toNat + (l.body.length - after.length)
      let lead := leadingBlanks after
      let width := columnAfter 0 start lead - start
      let indent := scope.indent + 4
      let first := { l with
        lead, body := dropBlanks after
        indent := ((if width < indent then width + indent else width : Nat) : Int) }
      let inner := read { scope with indent } (first :: rest) limit
      (.footnote label inner.content, inner.used)

end SafeMarkdown.Markdown
