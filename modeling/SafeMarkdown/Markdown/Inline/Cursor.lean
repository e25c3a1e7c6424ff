import SafeMarkdown.Markdown.Destination
import SafeMarkdown.Markdown.Dialect
import SafeMarkdown.Markdown.Footnote
import SafeMarkdown.Markdown.Inline.Emphasis
import SafeMarkdown.Markdown.Markup
import Std.Data.HashMap

/-!
# Reading a line

A cursor goes over the characters of a text and collects its pieces. The rules here know what stands
by itself: plain text, line breaks, escapes, code, marks, links to their own address, raw markup and
character references. A rule either moves the cursor or leaves it.
-/

namespace SafeMarkdown.Markdown

/-- What a text is read with. -/
structure Source where
  dialect : Dialect
  definitions : List Definition
  chars : Array Char

/-- The state of reading. -/
structure Cursor where
  pos : Nat := 0
  /-- Where the part of the text that is read ends. -/
  stop : Nat
  /-- Text that belongs to no piece yet, backwards. -/
  pending : List Char := []
  /-- The pieces so far, last first. -/
  pieces : List Piece := []
  /-- In how many links the cursor is. -/
  depth : Nat := 0
  /-- Where what starts at a position ends, as far as that was looked up. -/
  ends : Std.HashMap Nat Nat := {}
  /-- The last position of runs of backticks, by their length. -/
  ticks : List (Nat × Nat) := []
  /-- Whether all runs of backticks have been seen. -/
  allTicks : Bool := false
  notes : Notes

namespace Source

def at? (src : Source) (i : Nat) : Option Char :=
  src.chars[i]?

def has (src : Source) (i : Nat) (c : Char) : Bool :=
  src.chars[i]? == some c

def slice (src : Source) (start stop : Nat) : List Char :=
  (src.chars.extract start stop).toList

/-- The first position, from one on and below another, whose character satisfies `p`. -/
def find (src : Source) (p : Char → Bool) (i stop : Nat) : Nat :=
  if _ : i < stop then
    match src.chars[i]? with
    | some c => if p c then i else src.find p (i + 1) stop
    | none => stop
  else i
termination_by stop - i

def skipGaps (src : Source) (i stop : Nat) : Nat :=
  src.find (!isGap ·) i stop

end Source

namespace Cursor

def flush (c : Cursor) : Cursor :=
  if c.pending.isEmpty then c
  else { c with pieces := .text c.pending.reverse :: c.pieces, pending := [] }

/-- Adds a piece, unless the cursor only looks ahead. -/
def push (c : Cursor) (silent : Bool) (p : Piece) : Cursor :=
  if silent then c
  else
    let c := c.flush
    { c with pieces := p :: c.pieces }

def pushToken (c : Cursor) (silent : Bool) (t : Token) : Cursor :=
  c.push silent (.tokens [t])

def write (c : Cursor) (silent : Bool) (s : List Char) : Cursor :=
  if silent then c else { c with pending := s.reverse ++ c.pending }

def goto (c : Cursor) (i : Nat) : Cursor :=
  { c with pos := i }

end Cursor

/-- Characters at which something other than plain text may start. -/
def isSpecial (c : Char) : Bool :=
  "\n!#$%&*+-:<=>@[\\]^_`\x7b\x7d~".toList.contains c

def readText (src : Source) (silent : Bool) (c : Cursor) : Option Cursor :=
  let found := src.find isSpecial c.pos src.chars.size
  let stop := if found < src.chars.size then found else c.stop
  if stop = c.pos then none
  else some ((c.write silent (src.slice c.pos stop)).goto stop)

/-- A line end: a hard break after two spaces. The blanks around it are dropped. -/
def readLineEnd (src : Source) (silent : Bool) (c : Cursor) : Cursor :=
  let next := src.find (!Text.isSpaceOrTab ·) (c.pos + 1) c.stop
  let kept := c.pending.dropWhile (· == ' ')
  let type := if c.pending.length - kept.length < 2 then "softbreak" else "hardbreak"
  let c := if silent then c else { c with pending := kept }
  (c.pushToken silent { type, tag := "br" }).goto next

/-- What stands after a backslash. -/
def readEscape (src : Source) (silent : Bool) (c : Cursor) : Option Cursor :=
  let i := c.pos + 1
  if c.stop ≤ i then none
  else
    match src.at? i with
    | none => none
    | some d =>
      if d == '\n' then
        let next := src.find (!Text.isSpaceOrTab ·) (i + 1) c.stop
        some ((c.pushToken silent { type := "hardbreak", tag := "br" }).goto next)
      else
        let s := if Text.isAsciiPunctuation d then [d] else ['\\', d]
        some ((c.push silent (.literal s)).goto (i + 1))

/-- The text of code between backticks: line ends are spaces, and one space at each end is dropped
when there is more than white space. -/
def codeText (s : List Char) : List Char :=
  let s := s.map fun c ↦ if c == '\n' then ' ' else c
  if s.head? == some ' ' && s.getLast? == some ' ' && !(Text.trim s).isEmpty then
    (s.drop 1).dropLast
  else s

/-- The next run of so many backticks, from a position on: where it starts and ends. The other runs
on the way are kept in mind. -/
def closingTicks (src : Source) (stop width : Nat) :
    Nat → Nat → List (Nat × Nat) → Option (Nat × Nat) × List (Nat × Nat)
  | 0, _, ticks => (none, ticks)
  | fuel + 1, i, ticks =>
    let start := src.find (· == '`') i src.chars.size
    if src.chars.size ≤ start then (none, ticks)
    else
      let after := src.find (· != '`') (start + 1) (max stop (start + 1))
      if after - start = width then (some (start, after), ticks)
      else closingTicks src stop width fuel after ((after - start, start) :: ticks)

/-- Code between backticks; backticks without others to close them are text. -/
def readTicks (src : Source) (silent : Bool) (c : Cursor) : Cursor :=
  let after := src.find (· != '`') (c.pos + 1) (max c.stop (c.pos + 1))
  let width := after - c.pos
  let asText (c : Cursor) := (c.write silent (List.replicate width '`')).goto after
  if c.allTicks && (c.ticks.lookup width).getD 0 ≤ c.pos then asText c
  else
    match closingTicks src c.stop width src.chars.size after c.ticks with
    | (some (start, stop), ticks) =>
      let text := codeText (src.slice after start)
      ({ c with ticks }.pushToken silent
        { type := "code_inline", tag := "code", content := String.ofList text }).goto stop
    | (none, ticks) => asText { c with ticks, allTicks := true }

/-- The end of a run of marks, and whether the run may open and may close. -/
def scanMarks (src : Source) (mark : Char) (within : Bool) (c : Cursor) : Nat × Bool × Bool :=
  let before := if c.pos = 0 then ' ' else (src.at? (c.pos - 1)).getD ' '
  let stop := src.find (· != mark) (c.pos + 1) (max c.stop (c.pos + 1))
  let after := if stop < c.stop then (src.at? stop).getD ' ' else ' '
  (stop, flanks before after within)

/-- Asterisks or underscores. -/
def readEmphasis (src : Source) (mark : Char) (c : Cursor) : Cursor :=
  let (stop, opens, closes) := scanMarks src mark (mark == '*') c
  let run := stop - c.pos
  ((List.range run).foldl (fun c _ ↦ c.push false (.mark ⟨[mark], run, opens, closes⟩)) c).goto stop

/-- Tildes: they count by twos, and one that is left over is text. Where single tildes count as
well, one or two of them are a mark, and more of them are text. -/
def readTildes (src : Source) (c : Cursor) : Option Cursor :=
  let (stop, opens, closes) := scanMarks src '~' true c
  let run := stop - c.pos
  if src.dialect.singleTilde then
    let tildes := List.replicate run '~'
    let piece : Piece := if 2 < run then .text tildes else .mark ⟨tildes, 0, opens, closes⟩
    some ((c.push false piece).goto stop)
  else if run < 2 then none
  else
    let c := if run % 2 = 1 then c.push false (.text ['~']) else c
    some (((List.range (run / 2)).foldl
      (fun c _ ↦ c.push false (.mark ⟨['~', '~'], 0, opens, closes⟩)) c).goto stop)

def isSchemeChar (c : Char) : Bool :=
  c.isAlphanum || c == '+' || c == '.' || c == '-'

def withoutLineEnd (s : List Char) : List Char :=
  if s.getLast? == some '\n' then s.dropLast else s

/-- Whether a text is an address with a scheme. -/
def isAddress (s : List Char) : Bool :=
  let scheme := s.takeWhile isSchemeChar
  match s.drop scheme.length with
  | ':' :: rest =>
    2 ≤ scheme.length && scheme.length ≤ 32 && (scheme.head?.map Char.isAlpha).getD false &&
      (withoutLineEnd rest).all fun c ↦ 0x20 < c.toNat && c != '<' && c != '>'
  | _ => false

def isMailboxChar (c : Char) : Bool :=
  c.isAlphanum || ".!#$%&'*+/=?^_`\x7b|\x7d~-".toList.contains c

def isDomainLabel (s : List Char) : Bool :=
  s.length ≤ 63 && s.all (fun c ↦ c.isAlphanum || c == '-') && !s.isEmpty &&
    s.head? != some '-' && s.getLast? != some '-'

def isMailAddress (s : List Char) : Bool :=
  let mailbox := s.takeWhile isMailboxChar
  match s.drop mailbox.length with
  | '@' :: domain =>
    !mailbox.isEmpty && (Text.splitAtEach (· == '.') (withoutLineEnd domain)).all isDomainLabel
  | _ => false

def addressTokens (href shown : List Char) : List Token :=
  [Token.opening "link_open" "a" [("href", .str (String.ofList href))],
    Token.text (Url.readable shown), Token.closing "link_close" "a"]

/-- A link to its own address. -/
def readAddress (src : Source) (silent : Bool) (c : Cursor) : Option Cursor :=
  let stop := src.find (fun d ↦ d == '<' || d == '>') (c.pos + 1) c.stop
  if c.stop ≤ stop || src.has stop '<' then none
  else
    let url := src.slice (c.pos + 1) stop
    let target := if isAddress url then some url
      else if isMailAddress url then some ("mailto:".toList ++ url)
      else none
    (target.bind link?).map fun href ↦
      (c.push silent (.tokens (addressTokens href url))).goto (stop + 1)

def readMarkup (src : Source) (silent : Bool) (c : Cursor) : Option Cursor :=
  if !src.dialect.rawHtml || c.stop ≤ c.pos + 2 then none
  else
    let rest := src.slice c.pos src.chars.size
    (afterMarkup? rest).map fun after ↦
      let n := rest.length - after.length
      (c.pushToken silent { type := "html_inline", content := String.ofList (rest.take n) }).goto
        (c.pos + n)

/-- A character reference. -/
def readEntity (src : Source) (silent : Bool) (c : Cursor) : Option Cursor :=
  if c.stop ≤ c.pos + 1 then none
  else
    let rest := src.slice c.pos (c.pos + 40)
    (readReference? rest).map fun (d, after) ↦
      (c.push silent (.literal [d])).goto (c.pos + (rest.length - after.length))

/-- A reference to a footnote that is defined apart. -/
def readNoteReference (src : Source) (silent : Bool) (c : Cursor) :
    Except Failure (Option Cursor) :=
  let start := c.pos + 2
  let stop := src.find (fun d ↦ d == ' ' || d == '\n' || d == ']') start c.stop
  if c.stop < c.pos + 3 || c.notes.labels.isEmpty || !src.has (c.pos + 1) '^' || stop = start ||
      c.stop ≤ stop || !src.has stop ']' then
    .ok none
  else
    let label := String.ofList (src.slice start stop)
    if (c.notes.labels.lookup label).isNone then .ok none
    else if silent then .ok (some (c.goto (stop + 1)))
    else do
      let (t, notes) ← c.notes.refer label
      return some ({ c.pushToken false t with notes }.goto (stop + 1))

end SafeMarkdown.Markdown
