import SafeMarkdown.Markdown.Block.Table

/-!
# What ends a paragraph

A paragraph goes on over its lines until a blank line or the start of another block. Not every block
may interrupt every other: a list that would interrupt a paragraph starts with the number one and
has content on its first line.
-/

namespace SafeMarkdown.Markdown

structure ListMark where
  number : Option Nat
  /-- The character that the items of a list have in common. -/
  sign : Char
  /-- The characters of the mark. -/
  width : Nat
  deriving DecidableEq

def decimal (ds : List Char) : Nat :=
  ds.foldl (fun n c ↦ n * 10 + (c.toNat - 48)) 0

/-- The mark that a text starts with. -/
def listMark? (s : List Char) : Option ListMark :=
  let digits := s.takeWhile Char.isDigit
  match s.drop digits.length with
  | [] => none
  | sign :: rest =>
    let parted := match rest with
      | [] => true
      | c :: _ => Text.isSpaceOrTab c
    if !parted then none
    else if digits.isEmpty then
      if sign == '*' || sign == '-' || sign == '+' then some ⟨none, sign, 1⟩ else none
    else if digits.length ≤ 9 && (sign == '.' || sign == ')') then
      some ⟨some (decimal digits), sign, digits.length + 1⟩
    else none

/-- Whether a line is indented to be content of the list around it and yet not of its items: then it
continues a paragraph. -/
def Scope.isBetweenItems (scope : Scope) (l : Line) : Bool :=
  match scope.listIndent with
  | some n => 4 ≤ l.indent - n && scope.isOutside l
  | none => false

def listLine? (scope : Scope) (l : Line) : Option ListMark :=
  if !scope.dialect.core || scope.isCode l || scope.isBetweenItems l then none else listMark? l.body

def interruptsByList (scope : Scope) (l : Line) : Bool :=
  match listLine? scope l with
  | none => false
  | some m =>
    scope.isOutside l ||
      (m.number.getD 1 == 1 && !(dropBlanks (l.body.drop m.width)).isEmpty)

def isQuoteLine (scope : Scope) (l : Line) : Bool :=
  !scope.isCode l && l.body.head? == some '>'

/-- The label of the footnote that a line starts, and what follows its colon. -/
def footnoteLine? (scope : Scope) (l : Line) : Option (List Char × List Char) :=
  match l.body with
  | '[' :: '^' :: rest =>
    let label := rest.takeWhile fun c ↦ c != ' ' && c != ']'
    if scope.isCode l || label.isEmpty then none
    else match rest.drop label.length with
      | ']' :: ':' :: after => some (label, after)
      | _ => none
  | _ => none

/-- Whether a line starts fenced code, a quotation or a thematic break. -/
def startsMarked (scope : Scope) (l : Line) : Bool :=
  scope.dialect.core && ((fence? scope l).isSome || isQuoteLine scope l || isRule scope l)

def startsMarkupOrHeading (scope : Scope) (l : Line) : Bool :=
  ((markupLine? scope l).map MarkupBlock.interrupts).getD false ||
    (scope.dialect.core && (headingLine? scope l).isSome)

/-- Whether a line ends a quotation or a table, though it is not blank. -/
def interruptsQuote (scope : Scope) (l : Line) : Bool :=
  startsMarked scope l || (listLine? scope l).isSome || startsMarkupOrHeading scope l

/-- Whether lines end a paragraph, though the first is not blank; a list is treated with caution
when what it interrupts is text. -/
def interruptsText (scope : Scope) (cautious : Bool) (lines : List Line) (limit : Nat) : Bool :=
  match lines with
  | [] => false
  | l :: _ =>
    (tableStart? scope lines limit).isSome || startsMarked scope l ||
      (if cautious then interruptsByList scope l else (listLine? scope l).isSome) ||
      (footnoteLine? scope l).isSome || startsMarkupOrHeading scope l

def Scope.isContinuation (scope : Scope) (l : Line) : Bool :=
  3 < l.indent - scope.indent || l.indent < 0

/-- The lines by which a paragraph goes on. -/
def textExtent (scope : Scope) (cautious : Bool) : List Line → Nat
  | [] => 0
  | l :: rest =>
    if l.isEmpty then 0
    else if scope.isContinuation l then textExtent scope cautious rest + 1
    else if interruptsText scope cautious (l :: rest) (rest.length + 1) then 0
    else textExtent scope cautious rest + 1

def underline? (scope : Scope) (l : Line) : Option Nat :=
  match l.body with
  | [] => none
  | mark :: _ =>
    if !scope.isOutside l && (mark == '-' || mark == '=') &&
        (dropBlanks (l.body.dropWhile (· == mark))).isEmpty then
      some (if mark == '=' then 1 else 2)
    else none

def afterOneLine (extent : Option (Nat × Nat)) : Option (Nat × Nat) :=
  extent.map fun (n, level) ↦ (n + 1, level)

/-- The lines of an underlined heading between its first line and the one that underlines it, and
its level. -/
def underlinedExtent (scope : Scope) : List Line → Option (Nat × Nat)
  | [] => none
  | l :: rest =>
    if l.isEmpty then none
    else if 3 < l.indent - scope.indent then afterOneLine (underlinedExtent scope rest)
    else match underline? scope l with
      | some level => some (0, level)
      | none =>
        if 0 ≤ l.indent && interruptsText scope true (l :: rest) (rest.length + 1) then none
        else afterOneLine (underlinedExtent scope rest)

/-- A heading whose text is underlined. -/
def underlined? (scope : Scope) : Rule
  | [], _ => none
  | l :: rest, limit =>
    if scope.isCode l then none
    else (underlinedExtent scope (rest.take (limit - 1))).map fun (n, level) ↦
      (.heading level (Text.trim (Line.join scope.indent false (l :: rest.take n))), n + 2)

def paragraph? (scope : Scope) : Rule
  | [], _ => none
  | l :: rest, _ =>
    let n := textExtent scope true rest
    some (.paragraph (Text.trim (Line.join scope.indent false (l :: rest.take n))), n + 1)

end SafeMarkdown.Markdown
