import SafeMarkdown.Markdown.Block.Read
import SafeMarkdown.Markdown.Block.Tokens
import SafeMarkdown.Markdown.Inline.Read
import SafeMarkdown.Markdown.Tree

/-!
# Documents

A document is read in two passes: first its blocks, which define references and footnotes, and then
the texts of the blocks in their order; the footnotes go to the end. The tokens are converted, and
the markers of components are matched. What stands inside a component is a document again. Its text
has fewer angle brackets than the document around it, because the tag before it has one, so
documents nest no deeper than their angle brackets allow.
-/

namespace SafeMarkdown.Markdown

def readTexts (dialect : Dialect) (definitions : List Definition) :
    Notes → List Token → Except Failure (List Token × Notes)
  | notes, [] => .ok ([], notes)
  | notes, t :: rest => do
    if t.type == "inline" then
      let (children, notes) ← readInline dialect definitions t.content.toList notes
      let (more, notes) ← readTexts dialect definitions notes rest
      return ({ t with children } :: more, notes)
    else
      let (more, notes) ← readTexts dialect definitions notes rest
      return (t :: more, notes)

def tokens (dialect : Dialect) (body : String) : Except Failure (List Token) := do
  let blocks := blocksOf dialect (normalize body)
  let ts := containerTokens dialect false none blocks
  let labels := (definedLabels ts).foldl Notes.define {}
  let (ts, notes) ← readTexts dialect (definitionsAmong blocks) labels ts
  return withNotes notes ts

def documentNodes (dialect : Dialect) : Nat → String → Logged (List Node)
  | 0, _ => pure []
  | depth + 1, body => do
    let ts ← Logged.ofExcept (tokens dialect body)
    let nodes ← convert (documentNodes dialect depth) ts
    Logged.ofExcept (Component.fold nodes)

def nestingBound (body : String) : Nat :=
  body.toList.count '<' + 1

def blocks (dialect : Dialect) (body : String) : Logged (List Node) :=
  documentNodes dialect (nestingBound body) body

def parse (dialect : Dialect) (body : String) : Logged Node := do
  return Node.root (← blocks dialect body)

def markupNodes (dialect : Dialect) (src : String) (block : Bool) : Logged (List Node) :=
  Component.ofMarkup (blocks dialect) src block

def treeOfTokens (dialect : Dialect) (ts : List Token) : Logged Node := do
  let nodes ← convert (blocks dialect) ts
  return Node.root (← Logged.ofExcept (Component.fold nodes))

end SafeMarkdown.Markdown
