import SafeMarkdown.Markdown.Destination
import SafeMarkdown.Markdown.Dialect
import SafeMarkdown.Markdown.Line

/-!
# Blocks

The blocks of a document. A block that holds text keeps it as it stands in its lines; a container
holds blocks.
-/

namespace SafeMarkdown.Markdown

/-- How the cells of a column are aligned. -/
inductive Alignment where
  | left
  | center
  | right
  deriving DecidableEq

def Alignment.name : Alignment → String
  | left => "left"
  | center => "center"
  | right => "right"

inductive Block where
  | paragraph (text : List Char)
  | heading (level : Nat) (text : List Char)
  | code (text : List Char)
  | fence (info text : List Char)
  | markup (text : List Char)
  | rule
  | quote (content : List Block)
  /-- A list, which is numbered when it has a start. The paragraphs of a tight list are not set
  apart. -/
  | list (start : Option Nat) (tight : Bool) (items : List Block)
  | item (content : List Block)
  | table (columns : List (Option Alignment)) (header : List (List Char))
      (rows : List (List (List Char)))
  | definition (d : Definition)
  | footnote (label : List Char) (content : List Block)
  deriving Inhabited

/-- Blocks that were read, the number of lines that they take, and whether no blank line parts
them. -/
structure Blocks where
  content : List Block
  used : Nat
  tight : Bool

/-- Where blocks are read. -/
structure Scope where
  dialect : Dialect
  /-- The columns by which the content of the container is indented. -/
  indent : Nat := 0
  listIndent : Option Nat := none

/-- How a container reads its content: from lines that can be seen, of which the first so many
belong to the container. -/
abbrev Reader := Scope → List Line → Nat → Blocks

/-- What a rule makes of the lines it is given, of which the first so many belong to the container:
a block and the number of lines that it takes. -/
abbrev Rule := List Line → Nat → Option (Block × Nat)

end SafeMarkdown.Markdown
