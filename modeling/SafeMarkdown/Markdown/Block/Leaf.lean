import SafeMarkdown.Markdown.Block
import SafeMarkdown.Markdown.Markup

/-!
# Blocks without blocks inside

Code that is indented or fenced, headings on one line, thematic breaks and raw markup. Each is known
by how its first line starts.
-/

namespace SafeMarkdown.Markdown

def Scope.isCode (scope : Scope) (l : Line) : Bool :=
  scope.dialect.core && 4 ≤ l.indent - scope.indent

/-- Whether a line is indented less than the container's content. -/
def Scope.isOutside (scope : Scope) (l : Line) : Bool :=
  l.indent < scope.indent

/-- The lines of indented code: up to the last that is indented so far. -/
def codeExtent (scope : Scope) : List Line → Nat
  | [] => 0
  | l :: rest =>
    if l.isEmpty then match codeExtent scope rest with
      | 0 => 0
      | n + 1 => n + 2
    else if scope.isCode l then codeExtent scope rest + 1
    else 0

def code? (scope : Scope) : Rule
  | [], _ => none
  | l :: rest, limit =>
    if scope.isCode l then
      let n := 1 + codeExtent scope (rest.take (limit - 1))
      let text := Line.join (4 + scope.indent) false ((l :: rest).take n)
      some (.code (text ++ ['\n']), n)
    else none

/-- The opening of fenced code. -/
structure Fence where
  mark : Char
  width : Nat
  info : List Char

def fence? (scope : Scope) (l : Line) : Option Fence :=
  match l.body with
  | [] => none
  | mark :: _ =>
    let width := (l.body.takeWhile (· == mark)).length
    let info := l.body.drop width
    if !scope.isCode l && (mark == '`' || mark == '~') && 3 ≤ width &&
        !(mark == '`' && info.contains '`') then
      some ⟨mark, width, info⟩
    else none

def Fence.isClosedBy (scope : Scope) (f : Fence) (l : Line) : Bool :=
  let width := (l.body.takeWhile (· == f.mark)).length
  !scope.isCode l && f.width ≤ width && (dropBlanks (l.body.drop width)).isEmpty

/-- The lines of fenced code after its opening, and whether a closing line follows. -/
def fenceExtent (scope : Scope) (f : Fence) : List Line → Nat × Bool
  | [] => (0, false)
  | l :: rest =>
    if l.isEmpty then
      if l.ended then
        let (n, closed) := fenceExtent scope f rest
        (n + 1, closed)
      else (0, false)
    else if scope.isOutside l then (0, false)
    else if f.isClosedBy scope l then (0, true)
    else
      let (n, closed) := fenceExtent scope f rest
      (n + 1, closed)

def fenced? (scope : Scope) : Rule
  | [], _ => none
  | l :: rest, limit =>
    (fence? scope l).map fun f ↦
      let (n, closed) := fenceExtent scope f (rest.take (limit - 1))
      let text := Line.join l.indent.toNat true (rest.take n)
      (.fence f.info text, if closed then n + 2 else n + 1)

/-- Whether a line is a thematic break. -/
def isRule (scope : Scope) (l : Line) : Bool :=
  match l.body with
  | [] => false
  | mark :: _ =>
    !scope.isCode l && (mark == '*' || mark == '-' || mark == '_') &&
      l.body.all (fun c ↦ c == mark || Text.isSpaceOrTab c) && 3 ≤ l.body.count mark

def rule? (scope : Scope) : Rule
  | [], _ => none
  | l :: _, _ => if isRule scope l then some (.rule, 1) else none

/-- The text of a heading without the number signs at its end, which a blank parts from it. -/
def headingText (s : List Char) : List Char :=
  let s := Text.dropEndWhile Text.isSpaceOrTab s
  let short := Text.dropEndWhile (· == '#') s
  match short.getLast? with
  | some c => if Text.isSpaceOrTab c then Text.trim short else Text.trim s
  | none => Text.trim s

def headingLine? (scope : Scope) (l : Line) : Option (Nat × List Char) :=
  let level := (l.body.takeWhile (· == '#')).length
  let rest := l.body.drop level
  let parted := match rest with
    | [] => true
    | c :: _ => Text.isSpaceOrTab c
  if !scope.isCode l && 1 ≤ level && level ≤ 6 && parted then some (level, headingText rest)
  else none

def heading? (scope : Scope) : Rule
  | [], _ => none
  | l :: _, _ => (headingLine? scope l).map fun (level, text) ↦ (.heading level text, 1)

def markupLine? (scope : Scope) (l : Line) : Option MarkupBlock :=
  if !scope.isCode l && scope.dialect.rawHtml then MarkupBlock.ofLine? l.body else none

/-- The lines of raw markup after its first. -/
def markupExtent (scope : Scope) (k : MarkupBlock) : List Line → Nat
  | [] => 0
  | l :: rest =>
    if scope.isOutside l then 0
    else if k.endsWith l.body then if l.isEmpty then 0 else 1
    else markupExtent scope k rest + 1

def markup? (scope : Scope) : Rule
  | [], _ => none
  | l :: rest, limit =>
    (markupLine? scope l).map fun k ↦
      let n := if k.endsWith l.body then 1 else 1 + markupExtent scope k (rest.take (limit - 1))
      (.markup (Line.join scope.indent true ((l :: rest).take n)), n)

end SafeMarkdown.Markdown
