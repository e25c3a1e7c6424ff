import SafeMarkdown.Markdown.Block
import SafeMarkdown.Markdown.Token

/-!
# From blocks to tokens

Containers become tokens around those of their content. The text of a block is one token whose
content is still to be read. Where the dialect has them, items that start with a checkbox are tasks,
and quotations that start with the name of an alert are alerts.
-/

namespace SafeMarkdown.Markdown

def textToken (s : List Char) : Token :=
  { type := "inline", content := String.ofList s }

def paragraphTokens (hidden : Bool) (s : List Char) : List Token :=
  [{ Token.opening "paragraph_open" "p" with hidden }, textToken s,
    { Token.closing "paragraph_close" "p" with hidden }]

def enclosed (name tag : String) (attrs : Fields) (content : List Token) : List Token :=
  Token.opening (name ++ "_open") tag attrs :: content ++ [Token.closing (name ++ "_close") tag]

def cellTokens (tag : String) (column : Option Alignment) (s : List Char) : List Token :=
  let attrs := match column with
    | some a => [("style", Value.str ("text-align:" ++ a.name))]
    | none => []
  enclosed tag tag attrs [textToken s]

def rowTokens (tag : String) (columns : List (Option Alignment)) (cells : List (List Char)) :
    List Token :=
  enclosed "tr" "tr" [] ((columns.zip cells).flatMap fun (a, s) ↦ cellTokens tag a s)

def tableTokens (columns : List (Option Alignment)) (header : List (List Char))
    (rows : List (List (List Char))) : List Token :=
  let body := if rows.isEmpty then []
    else enclosed "tbody" "tbody" [] (rows.flatMap (rowTokens "td" columns))
  enclosed "table" "table" [] (enclosed "thead" "thead" [] (rowTokens "th" columns header) ++ body)

def taskText? (s : List Char) : Option (List Char) :=
  match s with
  | '[' :: c :: ']' :: d :: rest =>
    if (c == ' ' || c == 'x' || c == 'X') && Text.isBlank d then some rest else none
  | _ => none

/-- The content of an item without its checkbox, if the item is a task. -/
def taskContent? (dialect : Dialect) (content : List Block) : Option (List Block) :=
  match dialect.tasks, content with
  | true, .paragraph s :: rest => (taskText? s).map (.paragraph · :: rest)
  | _, _ => none

def isTask (dialect : Dialect) : Block → Bool
  | .item content => (taskContent? dialect content).isSome
  | _ => false

def alertNames : List String := ["note", "tip", "important", "warning", "caution"]

/-- The name and the title of the alert that a text starts, and the text after that. -/
def alertLine? (s : List Char) : Option (String × String × List Char) :=
  match s with
  | '[' :: '!' :: rest =>
    let word := rest.takeWhile (· != ']')
    let name := String.ofList (word.map Char.toLower)
    let line := (rest.drop (word.length + 1)).takeWhile (· != '\n')
    let title := Text.trim line
    let title := if title.isEmpty then name.capitalize else String.ofList title
    if alertNames.contains name then
      some (name, title, rest.drop (word.length + 1 + line.length + 1))
    else none
  | _ => none

/-- The alert that the content of a quotation is: its name, its title and its own content. -/
def alert? (dialect : Dialect) (content : List Block) : Option (String × String × List Block) :=
  match dialect.alerts, content with
  | true, .paragraph s :: rest =>
    (alertLine? s).map fun (name, title, s) ↦
      (name, title, if s.isEmpty then rest else .paragraph s :: rest)
  | _, _ => none

def alertTitle (title : String) : List Token :=
  enclosed "paragraph" "p" [("class", .str "markdown-alert-title")]
    [{ type := "inline", content := title }]

/-- The tokens of a quotation around those of its content, without the paragraph that names an
alert. -/
def quoteTokens (dialect : Dialect) (content : List Block) (tokens : List Token) : List Token :=
  match alert? dialect content with
  | some (name, title, _) =>
    enclosed "alert" "div" [("class", .str ("markdown-alert markdown-alert-" ++ name))]
      (alertTitle title ++ tokens)
  | none => enclosed "blockquote" "blockquote" [] tokens

def listAttributes (dialect : Dialect) (start : Option Nat) (items : List Block) : Fields :=
  let number := match start with
    | some n => if n = 1 then [] else [("start", Value.int n)]
    | none => []
  if items.any (isTask dialect) then number ++ [("class", .str "contains-task-list")] else number

/-- The text of the first paragraph in a container as its tokens show it: a checkbox and the line
that names an alert are left out. -/
def shownText (dialect : Dialect) (item : Bool) (s : List Char) : List Char :=
  if item then (if dialect.tasks then (taskText? s).getD s else s)
  else if dialect.alerts then ((alertLine? s).map (·.2.2)).getD s
  else s

mutual

/-- The tokens of a block; `hidden` says that a paragraph is not set apart. -/
def blockTokens (dialect : Dialect) (hidden : Bool) : Block → List Token
  | .paragraph s => paragraphTokens hidden s
  | .heading level s =>
    enclosed "heading" ("h" ++ (Nat.repr level)) [] [textToken s]
  | .code s => [{ type := "code_block", tag := "code", content := String.ofList s }]
  | .fence info s =>
    [{ type := "fence", tag := "code", info := String.ofList info, content := String.ofList s }]
  | .markup s => [{ type := "html_block", content := String.ofList s }]
  | .rule => [{ type := "hr", tag := "hr" }]
  | .quote content =>
    quoteTokens dialect content (containerTokens dialect false (some false) content)
  | .list start tight items =>
    let (name, tag) := if start.isSome then ("ordered_list", "ol") else ("bullet_list", "ul")
    enclosed name tag (listAttributes dialect start items)
      (containerTokens dialect tight none items)
  | .item content =>
    let attrs := if (taskContent? dialect content).isSome then
      [("class", Value.str "task-list-item")] else []
    enclosed "list_item" "li" attrs (containerTokens dialect hidden (some true) content)
  | .table columns header rows => tableTokens columns header rows
  | .definition _ => []
  | .footnote label content =>
    { Token.opening "footnote_reference_open" "" with data := [("label", .str (String.ofList label))] }
      :: containerTokens dialect false none content ++
      [Token.closing "footnote_reference_close" ""]

/-- The tokens of blocks in a container; `start` says whether a container has just been opened that
is an item, or that is a quotation. -/
def containerTokens (dialect : Dialect) (hidden : Bool) (start : Option Bool) :
    List Block → List Token
  | [] => []
  | .paragraph s :: rest =>
    let shown := match start with
      | some item => shownText dialect item s
      | none => s
    let here := if shown.isEmpty && start == some false then [] else paragraphTokens hidden shown
    here ++ containerTokens dialect hidden none rest
  | b :: rest => blockTokens dialect hidden b ++ containerTokens dialect hidden none rest

end

mutual

def definitionsIn : Block → List Definition
  | .definition d => [d]
  | .quote content | .item content | .footnote _ content => definitionsAmong content
  | .list _ _ items => definitionsAmong items
  | _ => []

def definitionsAmong : List Block → List Definition
  | [] => []
  | b :: rest => definitionsIn b ++ definitionsAmong rest

end

def definedLabels (ts : List Token) : List String :=
  ts.filterMap fun t ↦
    if t.type == "footnote_reference_open" then (t.data.get? "label").bind Value.str? else none

end SafeMarkdown.Markdown
