import SafeMarkdown.Gfm.Autolink

/-!
# Task lists and links

A list item whose text starts with a checkbox in brackets becomes a task, and bare URLs become
links. Both happen outside of links and code only. Raw markup is not yet resolved here, so among
siblings its start and end tags of such elements are counted, and siblings that follow an open one
are left alone with all that is below them.
-/

namespace SafeMarkdown.Gfm

def exemptTags : List String := ["a", "code", "pre"]

/-- The tag of an exempt element that a text starts with after an angle bracket: whether it is an
end tag. It has to be closed by a bracket. -/
def exemptTag? (s : List Char) : Option Bool :=
  let closing := s.head? == some '/'
  let body := if closing then s.drop 1 else s
  let named := exemptTags.any fun t ↦
    ((body.take t.length).map Char.toLower) == t.toList &&
      !((body.drop t.length).head?.any Text.isWordChar)
  if named && body.contains '>' then some closing else none

/-- How many exempt elements are open after a piece of raw markup, given how many were open before
it; `inTag` tells whether a tag is being passed. -/
def openAfter (inTag : Bool) (depth : Nat) : List Char → Nat
  | [] => depth
  | c :: rest =>
    if inTag then openAfter (c != '>') depth rest
    else if c == '<' then
      match exemptTag? rest with
      | some closing => openAfter true (if closing then depth - 1 else depth + 1) rest
      | none => openAfter false depth rest
    else openAfter false depth rest

/-- A text that starts with a checkbox: whether it is checked, and the text after it. -/
def checkbox? (text : String) : Option (Bool × String) :=
  match text.toList with
  | '[' :: mark :: ']' :: blank :: rest =>
    if Text.isSpaceOrTab blank && (mark == ' ' || mark == 'x' || mark == 'X') then
      some (mark != ' ', String.ofList (blank :: rest))
    else none
  | _ => none

def checkboxNode (checked : Bool) : Node :=
  let attrs := [("type", Value.str "checkbox"), ("disabled", .bool true)]
  Node.element "input" (if checked then attrs ++ [("checked", .bool true)] else attrs) []

/-- Siblings whose first text starts with a checkbox, with an input element instead. -/
def withCheckbox? : List Node → Option (List Node)
  | [] => none
  | n :: rest =>
    if n.isText then
      (checkbox? n.text).map fun (checked, text) ↦
        checkboxNode checked :: { n with value := some text } :: rest
    else none

/-- The children of a task: the checkbox stands first in it, or in its first paragraph. -/
def taskChildren? : List Node → Option (List Node)
  | [] => none
  | first :: rest =>
    if first.isElement ["p"] then
      (withCheckbox? first.children).map fun inner ↦ { first with children := inner } :: rest
    else withCheckbox? (first :: rest)

def task? (item : Node) : Except Failure (Option Node) :=
  match taskChildren? item.children with
  | none => .ok none
  | some children => ({ item with children }.addClasses ["task-list-item"]).map some

/-- The items of a list, with tasks where there are some, and whether there are any. -/
def markItems : List Node → Except Failure (List Node × Bool)
  | [] => .ok ([], false)
  | n :: rest => do
    let task ← if n.tag == some "li" then task? n else pure none
    let (ns, found) ← markItems rest
    match task with
    | some m => return (m :: ns, true)
    | none => return (n :: ns, found)

/-- A list with its tasks marked; other nodes as they are. -/
def markTasks (n : Node) : Except Failure Node :=
  if n.isElement ["ul", "ol"] then do
    let (children, found) ← markItems n.children
    let n := { n with children }
    if found then n.addClasses ["contains-task-list"] else return n
  else .ok n

mutual

/-- Marks the tasks in a tree. -/
def taskLists : Node → Except Failure Node
  | ⟨kind, tag, attrs, children, value, data⟩ =>
    if Node.isElement ⟨kind, tag, attrs, [], value, data⟩ exemptTags then
      .ok ⟨kind, tag, attrs, children, value, data⟩
    else do
      let children ← taskListsAmong 0 children
      markTasks ⟨kind, tag, attrs, children, value, data⟩

/-- Marks the tasks below siblings, given how many exempt elements raw markup has opened. -/
def taskListsAmong (depth : Nat) : List Node → Except Failure (List Node)
  | [] => .ok []
  | n :: rest =>
    if n.isRaw then (taskListsAmong (openAfter false depth n.text.toList) rest).map (n :: ·)
    else if n.isText || depth != 0 then (taskListsAmong depth rest).map (n :: ·)
    else do
      let m ← taskLists n
      let ms ← taskListsAmong depth rest
      return m :: ms

end

mutual

/-- Links the bare URLs in a tree. -/
def links : Node → Node
  | ⟨kind, tag, attrs, children, value, data⟩ =>
    if Node.isElement ⟨kind, tag, attrs, [], value, data⟩ exemptTags then
      ⟨kind, tag, attrs, children, value, data⟩
    else ⟨kind, tag, attrs, linksAmong 0 children, value, data⟩

/-- Links the bare URLs in siblings and below them, given how many exempt elements raw markup has
opened. -/
def linksAmong (depth : Nat) : List Node → List Node
  | [] => []
  | n :: rest =>
    if n.isRaw then n :: linksAmong (openAfter false depth n.text.toList) rest
    else if depth != 0 then n :: linksAmong depth rest
    else if n.isText then autolink n.text ++ linksAmong depth rest
    else links n :: linksAmong depth rest

end

def enrich (tree : Node) : Except Failure Node :=
  (taskLists tree).map links

end SafeMarkdown.Gfm
