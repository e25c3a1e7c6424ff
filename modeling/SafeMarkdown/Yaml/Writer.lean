import SafeMarkdown.Text.Quoted
import SafeMarkdown.Yaml.Tag

/-!
# Writing YAML

Texts, lists of texts and mappings to such lists, in blocks. A text is written plainly if it would
be read as a text, in single quotes if it can, and else in double quotes with escapes, in which only
printable ASCII characters stand for themselves. Long texts are folded behind column 80, at single
spaces or, in double quotes, with a backslash.
-/

namespace SafeMarkdown.Yaml.Writer

def width : Nat := 80

def isLineEnd (c : Char) : Bool :=
  c == '\n' || c.toNat = 0x85 || c.toNat = 0x2028 || c.toNat = 0x2029

def isGap (c : Char) : Bool :=
  c == ' ' || c == '\t' || c == '\r' || c.toNat = 0 || isLineEnd c

def isGapOrEnd (rest : List Char) : Bool :=
  rest.head?.all isGap

def startsWithSign : List Char → Bool
  | [] => false
  | c :: rest =>
    "#,[]\x7b\x7d&*!|>'\"%@`".toList.contains c ||
      ((c == '?' || c == ':' || c == '-') && isGapOrEnd rest)

/-- Whether a colon before a gap or a hash behind one stands in a text, after its first
character. -/
def holdsSign : List Char → Bool
  | before :: c :: rest =>
    (c == ':' && isGapOrEnd rest) || (c == '#' && isGap before) || holdsSign (c :: rest)
  | _ => false

def startsDocument (s : List Char) : Bool :=
  "---".toList.isPrefixOf s || "...".toList.isPrefixOf s

def isPrintable (c : Char) : Bool :=
  ' ' ≤ c && c ≤ '~'

def hasOuterGap (s : List Char) : Bool :=
  let isOuter (c : Char) : Bool := c == ' ' || isLineEnd c
  s.head?.any isOuter || s.getLast?.any isOuter

/-- Whether a line end stands beside a space in a text. -/
def hasLooseSpace : List Char → Bool
  | c :: d :: rest =>
    (c == ' ' && isLineEnd d) || (isLineEnd c && d == ' ') || hasLooseSpace (d :: rest)
  | _ => false

/-- How a text is written. -/
inductive Style where
  | plain
  | single
  | double
  deriving DecidableEq

def isPlain (s : List Char) : Bool :=
  Tag.ofPlain s == .str && s.all isPrintable && !hasOuterGap s && !startsWithSign s &&
    !holdsSign s && !startsDocument s

def isSingle (s : List Char) : Bool :=
  s.all (fun c ↦ isPrintable c || c == '\n') && !hasLooseSpace s

/-- The way to write a text; a key of one line has no line ends. -/
def styleOf (s : List Char) : Style :=
  if isPlain s then .plain
  else if isSingle s then .single
  else .double

/-- The runs of a text: spaces, line feeds, and all else. -/
def runs : List Char → List (List Char)
  | [] => []
  | c :: rest =>
    match runs rest with
    | [] => [[c]]
    | run :: more =>
      if run.head?.any fun d ↦ (c == ' ') == (d == ' ') && (c == '\n') == (d == '\n') then
        (c :: run) :: more
      else [c] :: run :: more

def newLine (indent : Nat) : List Char :=
  '\n' :: List.replicate indent ' '

/-- The runs of a text, folded at single spaces inside of it. A line feed is written as an empty
line, and a single quote twice if `quoted`. -/
def foldRuns (indent : Nat) (folds quoted : Bool) : Nat → Bool → List (List Char) → List Char
  | _, _, [] => []
  | column, isFirst, run :: rest =>
    if run.head? == some ' ' then
      if folds && run.length == 1 && width < column && !isFirst && !rest.isEmpty then
        newLine indent ++ foldRuns indent folds quoted indent false rest
      else run ++ foldRuns indent folds quoted (column + run.length) false rest
    else if run.head? == some '\n' then
      run ++ newLine indent ++ foldRuns indent folds quoted indent false rest
    else
      let written := if quoted then run.flatMap fun c ↦ if c == '\'' then ['\'', '\''] else [c]
        else run
      written ++ foldRuns indent folds quoted (column + written.length) false rest

def escapeLetter? (n : Nat) : Option Char :=
  [(0, '0'), (7, 'a'), (8, 'b'), (9, 't'), (10, 'n'), (11, 'v'), (12, 'f'), (13, 'r'), (27, 'e'),
    (34, '"'), (92, '\\'), (0x85, 'N'), (0xa0, '_'), (0x2028, 'L'), (0x2029, 'P')].lookup n

def escape (c : Char) : List Char :=
  let n := c.toNat
  let digits (count : Nat) := (Text.hexDigits count n).map Char.toUpper
  match escapeLetter? n with
  | some letter => ['\\', letter]
  | none =>
    if n ≤ 0xff then '\\' :: 'x' :: digits 2
    else if n ≤ 0xffff then '\\' :: 'u' :: digits 4
    else '\\' :: 'U' :: digits 8

def isEscaped (c : Char) : Bool :=
  c == '"' || c == '\\' || !isPrintable c

/-- What a folded line goes on with: a space needs a backslash. -/
def resumption (indent : Nat) (next : Option Char) : List Char :=
  '\\' :: newLine indent ++ if next == some ' ' then ['\\'] else []

def resumedColumn (indent : Nat) (next : Option Char) : Nat :=
  if next == some ' ' then indent + 1 else indent

/-- A text in double quotes, folded before a space or beside an escape. Since the last escape or
fold, which led to a column, so many characters were written. -/
def escapeText (indent : Nat) (folds : Bool) : Nat → Nat → Bool → List Char → List Char
  | _, _, _, [] => []
  | column, since, isFirst, c :: rest =>
    let inside := folds && !isFirst && !rest.isEmpty
    if isEscaped c then
      let written := escape c
      let column := column + since + written.length
      if inside && width + 1 < column then
        written ++ resumption indent rest.head? ++
          escapeText indent folds (resumedColumn indent rest.head?) 0 false rest
      else written ++ escapeText indent folds column 0 false rest
    else if inside && (c == ' ' || since == 0) && width < column + since then
      resumption indent (some c) ++
        c :: escapeText indent folds (resumedColumn indent (some c)) 1 false rest
    else c :: escapeText indent folds column (since + 1) false rest

/-- A text that starts at a column. -/
def scalar (indent column : Nat) (folds : Bool) (s : List Char) : List Char :=
  match styleOf s with
  | .plain => foldRuns indent folds false column true (runs s)
  | .single => '\'' :: foldRuns indent folds true (column + 1) true (runs s) ++ ['\'']
  | .double => '"' :: escapeText indent folds (column + 1) 0 true s ++ ['"']

def isSimpleKey (s : List Char) : Bool :=
  !s.isEmpty && !s.any isLineEnd && s.length < 123

/-- The items of a list, each with a hyphen, and what precedes all of them but the first. -/
def items (indent : Nat) : List String → List Char
  | [] => []
  | [name] => '-' :: ' ' :: scalar (indent + 2) (indent + 2) true name.toList
  | name :: rest =>
    '-' :: ' ' :: scalar (indent + 2) (indent + 2) true name.toList ++ newLine indent ++
      items indent rest

def listAfterKey (indent : Nat) (names : List String) : List Char :=
  if names.isEmpty then [' ', '[', ']'] else newLine indent ++ items indent names

def listEntry (indent : Nat) (key : String) (names : List String) : List Char :=
  if isSimpleKey key.toList then
    scalar (indent + 2) indent false key.toList ++ ':' :: listAfterKey indent names
  else
    '?' :: ' ' :: scalar (indent + 2) (indent + 2) true key.toList ++ newLine indent ++ ':' :: ' ' ::
      if names.isEmpty then ['[', ']'] else items (indent + 2) names

/-- What stands under a key of a document. -/
inductive Content where
  | list (names : List String)
  | mapping (entries : List (String × List String))

/-- A key of a document with what stands under it. -/
def topEntry (key : String) : Content → List Char
  | .list names => listEntry 0 key names
  | .mapping entries => scalar 2 0 false key.toList ++ ':' ::
      if entries.isEmpty then [' ', '\x7b', '\x7d']
      else entries.flatMap fun e ↦ newLine 2 ++ listEntry 2 e.1 e.2

def document (entries : List (String × Content)) : String :=
  "\n".intercalate (entries.map fun e ↦ String.ofList (topEntry e.1 e.2))

end SafeMarkdown.Yaml.Writer
