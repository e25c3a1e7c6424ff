/-!
# Dialects

A dialect of Markdown says which constructs are recognised. Every dialect has footnotes.
-/

namespace SafeMarkdown.Markdown

structure Dialect where
  /-- Everything of CommonMark but raw HTML: headings, lists, quotations, code, emphasis, links. -/
  core : Bool := true
  rawHtml : Bool := true
  tables : Bool := false
  /-- Text struck through between pairs of tildes. -/
  strikethrough : Bool := false
  /-- Text struck through between single tildes as well. -/
  singleTilde : Bool := false
  /-- Checkboxes in list items. -/
  tasks : Bool := false
  alerts : Bool := false
  /-- How deeply blocks and inlines nest. -/
  nesting : Nat := 20
  deriving DecidableEq

namespace Dialect

def commonmark : Dialect := {}

def gfmLike : Dialect := { tables := true, strikethrough := true }

/-- The dialect with task lists, alerts and single tildes as well. -/
def gfmLike2 : Dialect :=
  { tables := true, strikethrough := true, singleTilde := true, tasks := true, alerts := true }

def complete : Dialect :=
  { rawHtml := false, tables := true, strikethrough := true, nesting := 100 }

def zero : Dialect := { core := false, rawHtml := false }

def ofName? (name : String) : Option Dialect :=
  match name with
  | "gfm-like" => some gfmLike
  | "gfm-like2" => some gfmLike2
  | "commonmark" => some commonmark
  | "default" => some complete
  | "js-default" => some complete
  | "zero" => some zero
  | _ => none

end Dialect

end SafeMarkdown.Markdown
