import SafeMarkdown.Text.Bytes
import SafeMarkdown.Text.Blank

/-!
# Lines

A document is read line by line. A line knows what it starts with, up to its content, and how many
columns of indentation that is; a tab reaches to the next multiple of four columns. What stands
inside a container has lines of its own: the marks of the container are part of their beginning.
-/

namespace SafeMarkdown.Markdown

/-- A line of a document, as seen from inside a container. -/
structure Line where
  /-- What comes before the content: indentation, and the mark of a list item. -/
  lead : List Char
  body : List Char
  /-- The columns before the content; -1 when the line only continues a paragraph. -/
  indent : Int
  /-- The column at which the line starts, for the width of its tabs. -/
  base : Nat := 0
  /-- Whether a line end follows. -/
  ended : Bool := true
  deriving Inhabited

def nextColumn (base column : Nat) (c : Char) : Nat :=
  if c == '\t' then column + (4 - (column + base) % 4) else column + 1

def columnAfter (base column : Nat) (blanks : List Char) : Nat :=
  blanks.foldl (nextColumn base) column

def leadingBlanks (s : List Char) : List Char :=
  s.takeWhile Text.isSpaceOrTab

def dropBlanks (s : List Char) : List Char :=
  s.dropWhile Text.isSpaceOrTab

namespace Line

def ofChars (s : List Char) (ended : Bool) : Line :=
  let lead := leadingBlanks s
  { lead, body := dropBlanks s, indent := (columnAfter 0 0 lead : Nat), ended }

def isEmpty (l : Line) : Bool :=
  l.body.isEmpty

/-- The characters of a line after so many columns, of which some have been passed and `lead`
characters count whatever they are. A tab that reaches further leaves spaces behind. -/
def cutFrom (base columns : Nat) : Nat → Nat → List Char → List Char
  | column, _, [] => List.replicate (column - columns) ' '
  | column, lead, c :: rest =>
    if columns ≤ column then List.replicate (column - columns) ' ' ++ c :: rest
    else if Text.isSpaceOrTab c then cutFrom base columns (nextColumn base column c) (lead - 1) rest
    else if 0 < lead then cutFrom base columns (column + 1) (lead - 1) rest
    else c :: rest

def cut (columns : Nat) (l : Line) : List Char :=
  cutFrom l.base columns 0 l.lead.length (l.lead ++ l.body)

def bodyAndEnd (l : Line) : List Char :=
  if l.ended then l.body ++ ['\n'] else l.body

/-- The text of lines after so many columns, with or without the last line end. -/
def join (columns : Nat) (keepLast : Bool) : List Line → List Char
  | [] => []
  | [l] => l.cut columns ++ (if keepLast && l.ended then ['\n'] else [])
  | l :: rest => l.cut columns ++ '\n' :: join columns keepLast rest

end Line

/-- The lines of a text whose line ends are line feeds. A last line that is blank and has no line
end is none. -/
def linesOf (s : List Char) : List Line :=
  let pieces := Text.splitAtEach (· == '\n') s
  let last := pieces.getLast?.getD []
  let ended := pieces.dropLast.map (Line.ofChars · true)
  if last.all Text.isSpaceOrTab then ended else ended ++ [Line.ofChars last false]

/-- The characters of a document: line ends are line feeds, and NUL becomes the replacement
character. -/
def normalize (s : String) : List Char :=
  (Text.unifyLineEnds s.toList).map fun c ↦ if c.toNat = 0 then Char.ofNat 0xfffd else c

end SafeMarkdown.Markdown
