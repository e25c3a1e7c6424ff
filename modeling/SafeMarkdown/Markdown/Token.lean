import SafeMarkdown.Value

/-!
# Tokens of a Markdown document

A document is read as a sequence of tokens: containers open and close, and what has no content of
its own is a token by itself. The text of a block is one token that holds the tokens of its line.
-/

namespace SafeMarkdown.Markdown

/-- Whether a token opens a container, closes one, or stands by itself. -/
inductive Nesting where
  | opens
  | closes
  | single
  deriving DecidableEq, Repr, Inhabited

structure Token where
  type : String
  nesting : Nesting := .single
  tag : String := ""
  attrs : Fields := []
  content : String := ""
  info : String := ""
  hidden : Bool := false
  children : List Token := []
  /-- Further data: the number of a footnote and of a reference to it. -/
  data : Fields := []
  deriving Inhabited

namespace Token

def opening (type tag : String) (attrs : Fields := []) : Token :=
  { type, nesting := .opens, tag, attrs }

def closing (type tag : String) : Token :=
  { type, nesting := .closes, tag }

def text (s : List Char) : Token :=
  { type := "text", content := String.ofList s }

end Token

end SafeMarkdown.Markdown
