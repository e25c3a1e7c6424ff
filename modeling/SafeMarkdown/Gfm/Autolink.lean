import SafeMarkdown.Text.Alphanumeric
import SafeMarkdown.Text.Blank
import SafeMarkdown.Tree.Node

/-!
# Bare URLs

A bare URL starts with a scheme or with `www.` after a character that no address or word ends in,
runs up to white space or an opening bracket, and does not end in punctuation. One without a scheme
links by the plain one.
-/

namespace SafeMarkdown.Gfm

/-- Whether a URL may start after a character; at the start of a text it may. -/
def startsAfter : Option Char → Bool
  | none => true
  | some c => !(Text.isWordChar c || c == '/' || c == '@' || c == '.')

def urlStarts : List String := ["http://", "https://", "www."]

def isUrlChar (c : Char) : Bool :=
  !(Text.isBlank c || c == '<')

def isUrlPunctuation (c : Char) : Bool :=
  ".,:;\"')]!?*_~".toList.contains c

def urlStartLength (s : List Char) : Option Nat :=
  (urlStarts.find? fun u ↦ u.toList.isPrefixOf s).map String.length

/-- The length of the URL at the start of a text that follows a character, zero when there is
none. -/
def urlLength (before : Option Char) (s : List Char) : Nat :=
  if startsAfter before then
    match urlStartLength s with
    | none => 0
    | some n =>
      let body := Text.dropEndWhile isUrlPunctuation ((s.drop n).takeWhile isUrlChar)
      if body.isEmpty then 0 else n + body.length
  else 0

inductive Piece where
  | char (c : Char)
  | link (url : List Char)
  deriving DecidableEq

def pieces (before : Option Char) (s : List Char) : List Piece :=
  match s with
  | [] => []
  | c :: rest =>
    let n := urlLength before (c :: rest)
    if n = 0 then .char c :: pieces (some c) rest
    else
      let url := c :: rest.take (n - 1)
      .link url :: pieces url.getLast? (rest.drop (n - 1))
termination_by s.length
decreasing_by
  · simp only [List.length_cons]; omega
  · simp only [List.length_drop, List.length_cons]; omega

def hrefOf (url : List Char) : String :=
  if "www.".toList.isPrefixOf url then "http://" ++ String.ofList url else String.ofList url

def linkNode (url : List Char) : Node :=
  Node.element "a" [("href", .str (hrefOf url))] [Node.ofText (String.ofList url)]

/-- Characters, last first, as a text node; no characters are no node. -/
def textNodes (pending : List Char) : List Node :=
  if pending.isEmpty then [] else [Node.ofText (String.ofList pending.reverse)]

/-- The nodes of pieces after characters that wait to become a text, last first. -/
def nodesOf (pending : List Char) : List Piece → List Node
  | [] => textNodes pending
  | .char c :: rest => nodesOf (c :: pending) rest
  | .link url :: rest => textNodes pending ++ linkNode url :: nodesOf [] rest

def autolink (text : String) : List Node :=
  nodesOf [] (pieces none text.toList)

end SafeMarkdown.Gfm
