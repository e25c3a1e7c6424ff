import SafeMarkdown.Markdown.Block.Leaf

/-!
# Tables

A table starts with a row of headings and a row that says how its columns are aligned. Cells are
parted by bars; a bar after a backslash is a character of its cell. A row with too few cells is
filled up, and one with too many is cut.
-/

namespace SafeMarkdown.Markdown

/-- Whether a character may be part of the row that aligns the columns. -/
def isAlignmentChar (c : Char) : Bool :=
  c == '|' || c == '-' || c == ':' || Text.isSpaceOrTab c

/-- The alignment that a cell of that row gives its column: hyphens with a colon at the ends to
which the column is aligned. -/
def alignment? (cell : List Char) : Option (Option Alignment) :=
  let left := cell.head? == some ':'
  let dashes := if left then cell.drop 1 else cell
  let right := dashes.getLast? == some ':'
  let dashes := if right then dashes.dropLast else dashes
  if dashes.isEmpty || !dashes.all (· == '-') then none
  else some (if right then some (if left then .center else .right)
    else if left then some .left else none)

/-- The alignments of cells; the outermost cells may be empty and are none then. -/
def alignmentsOf (outermost : Bool) : List (List Char) → Option (List (Option Alignment))
  | [] => some []
  | cell :: rest =>
    let cell := Text.trim cell
    if cell.isEmpty then
      if outermost || rest.isEmpty then alignmentsOf false rest else none
    else do
      let a ← alignment? cell
      return a :: (← alignmentsOf false rest)

/-- The alignments that a line gives. -/
def alignmentRow? (s : List Char) : Option (List (Option Alignment)) :=
  match s with
  | first :: second :: _ =>
    if s.all isAlignmentChar && !Text.isSpaceOrTab first &&
        !(first == '-' && Text.isSpaceOrTab second) then
      alignmentsOf true (Text.splitAtEach (· == '|') s)
    else none
  | _ => none

/-- The cells of a row, given the cell being read, backwards, and whether the last character was a
backslash. -/
def cellsFrom (cell : List Char) (escaped : Bool) : List Char → List (List Char)
  | [] => [cell.reverse]
  | c :: rest =>
    if c == '|' then
      if escaped then cellsFrom ('|' :: cell.drop 1) false rest
      else cell.reverse :: cellsFrom [] false rest
    else cellsFrom (c :: cell) (c == '\\') rest

/-- The cells of a row; an empty cell at either end is none. -/
def cellsOf (row : List Char) : List (List Char) :=
  let cells := cellsFrom [] false row
  let cells := if cells.head? == some [] then cells.drop 1 else cells
  let cells := if cells.getLast? == some [] then cells.dropLast else cells
  cells.map Text.trim

def lackingCells : Int := 0x10000

def tableStart? (scope : Scope) (lines : List Line) (limit : Nat) :
    Option (List (Option Alignment) × List (List Char)) :=
  match lines with
  | l :: second :: _ =>
    if !scope.dialect.tables || limit < 2 || scope.isOutside second || scope.isCode second then none
    else
      match alignmentRow? second.body with
      | none => none
      | some columns =>
        let row := Text.trim l.body
        let cells := cellsOf row
        if row.contains '|' && !scope.isCode l && !cells.isEmpty &&
            cells.length == columns.length then
          some (columns, cells)
        else none
  | _ => none

/-- The rows of a table of so many columns, of which cells may be lacking; a row that starts another
block is none. -/
def tableRows (scope : Scope) (startsOther : Line → Bool) (columns : Nat) :
    Int → List Line → List (List (List Char))
  | _, [] => []
  | lacking, l :: rest =>
    let row := Text.trim l.body
    if scope.isOutside l || startsOther l || row.isEmpty || scope.isCode l then []
    else
      let cells := cellsOf row
      let lacking := lacking + columns - cells.length
      if lackingCells < lacking then []
      else
        (cells ++ List.replicate (columns - cells.length) []).take columns ::
          tableRows scope startsOther columns lacking rest

/-- A table, given which lines start another block. -/
def table? (scope : Scope) (startsOther : Line → Bool) : Rule := fun lines limit ↦
  (tableStart? scope lines limit).map fun (columns, header) ↦
    let rows := tableRows scope startsOther columns.length 0 ((lines.take limit).drop 2)
    (.table columns header rows, rows.length + 2)

end SafeMarkdown.Markdown
