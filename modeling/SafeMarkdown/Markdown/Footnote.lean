import SafeMarkdown.Failure
import SafeMarkdown.Markdown.Token

/-!
# Footnotes

A footnote is defined apart from the text or stands in it. Footnotes are numbered in the order in
which the text comes to them, and the definitions that it never comes to are dropped. At the end of
the document each footnote stands with the links back to its references.
-/

namespace SafeMarkdown.Markdown

/-- A footnote that the text has come to. -/
inductive Note where
  | defined (label : String) (references : Nat)
  /-- One that stands in the text. -/
  | inline (content : String) (tokens : List Token)

/-- The footnotes of a document. -/
structure Notes where
  /-- The labels that are defined, each with its number once the text has come to it. -/
  labels : List (String × Option Nat) := []
  /-- The footnotes that the text has come to, by their numbers. -/
  notes : List Note := []

namespace Notes

def define (ns : Notes) (label : String) : Notes :=
  if (ns.labels.lookup label).isSome then ns else { ns with labels := ns.labels ++ [(label, none)] }

def place (ns : Notes) (n : Nat) (note : Note) : Notes :=
  { ns with notes := ns.notes.take n ++ note :: ns.notes.drop (n + 1) }

def referenceToken (n : Nat) (sub : Option Nat) : Token :=
  { type := "footnote_ref"
    data := ("id", .int n) :: match sub with
      | some k => [("subId", .int k)]
      | none => [] }

/-- Refers to the footnote with a label: the token of the reference. A label whose number a footnote
in the text has taken cannot be referred to again. -/
def refer (ns : Notes) (label : String) : Except Failure (Token × Notes) :=
  match (ns.labels.lookup label).join with
  | none =>
    let n := ns.notes.length
    let labels := ns.labels.map fun (l, number) ↦ if l == label then (l, some n) else (l, number)
    .ok (referenceToken n (some 0), { labels, notes := ns.notes ++ [.defined label 1] })
  | some n =>
    match ns.notes[n]? with
    | some (.defined l k) =>
      .ok (referenceToken n (some k), ns.place n (.defined l (k + 1)))
    | _ => .error .missingKey

end Notes

/-- Tokens parted into those of the text and those of each definition, whose tokens come last
first. -/
structure Parted where
  text : List Token := []
  definitions : List (String × List Token) := []
  /-- The label of the last definition that was opened. -/
  label : String := ""
  /-- The tokens of the last definition that was opened. -/
  current : List Token := []
  inside : Bool := false

/-- Puts one more token to where it belongs. -/
def Parted.add (p : Parted) (t : Token) : Parted :=
  if t.type == "footnote_reference_open" then
    { p with inside := true, current := [], label := ((t.data.get? "label").bind Value.str?).getD "" }
  else if t.type == "footnote_reference_close" then
    { p with inside := false, definitions := (p.label, p.current) :: p.definitions }
  else if p.inside then { p with current := t :: p.current }
  else { p with text := t :: p.text }

def anchors (n count : Nat) : List Token :=
  (List.range count).map fun (k : Nat) ↦
    { type := "footnote_anchor", data := [("id", .int n), ("subId", .int k)] }

/-- Tokens with others put at their end, but into the paragraph that ends there. -/
def addToLastParagraph (ts added : List Token) : List Token :=
  match ts.getLast? with
  | some t => if t.type == "paragraph_close" then ts.dropLast ++ added ++ [t] else ts ++ added
  | none => added

/-- The tokens of a footnote with a number. -/
def noteTokens (definitions : List (String × List Token)) (n : Nat) (note : Note) : List Token :=
  let content := match note with
    | .defined label count =>
      addToLastParagraph ((definitions.lookup label).getD []).reverse (anchors n (max count 1))
    | .inline content tokens =>
      [Token.opening "paragraph_open" "p", { type := "inline", content, children := tokens }] ++
        anchors n 1 ++ [Token.closing "paragraph_close" "p"]
  { Token.opening "footnote_open" "" with data := [("id", .int n)] } ::
    content ++ [Token.closing "footnote_close" ""]

/-- The tokens of a document with its footnotes at the end. -/
def withNotes (ns : Notes) (tokens : List Token) : List Token :=
  let p := tokens.foldl Parted.add {}
  let text := p.text.reverse
  if ns.notes.isEmpty then text
  else
    text ++ Token.opening "footnote_block_open" "" ::
      ns.notes.zipIdx.flatMap (fun (note, n) ↦ noteTokens p.definitions n note) ++
      [Token.closing "footnote_block_close" ""]

end SafeMarkdown.Markdown
