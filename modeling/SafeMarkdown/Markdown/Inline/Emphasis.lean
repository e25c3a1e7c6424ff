import SafeMarkdown.Markdown.Token
import SafeMarkdown.Text.Blank
import SafeMarkdown.Text.Punctuation

/-!
# Emphasis

Asterisks, underscores and tildes are marks that may open or close something, by what stands around
them. Each mark that may close is paired with the nearest before it that may open; two pairs
directly around the same text are one strong emphasis. Marks without a partner are text.
-/

namespace SafeMarkdown.Markdown

structure Mark where
  text : List Char
  /-- The number of marks in its run, where pairs depend on that. -/
  run : Nat
  opens : Bool
  closes : Bool

inductive Piece where
  | text (s : List Char)
  /-- Text that was escaped. -/
  | literal (s : List Char)
  | mark (m : Mark)
  | tokens (ts : List Token)

/-- Whether emphasis takes a character as white space. -/
def isOpenSpace (c : Char) : Bool :=
  let n := c.toNat
  (0x2000 ≤ n && n ≤ 0x200a) || (0x9 ≤ n && n ≤ 0xd) || n == 0x20 || n == 0xa0 || n == 0x1680 ||
    n == 0x202f || n == 0x205f || n == 0x3000

/-- Whether a run of marks between two characters may open and may close; `within` says whether it
may do so inside of a word. -/
def flanks (before after : Char) (within : Bool) : Bool × Bool :=
  let spaceBefore := isOpenSpace before
  let spaceAfter := isOpenSpace after
  let markBefore := Text.isAsciiPunctuation before || Text.isPunctuation before
  let markAfter := Text.isAsciiPunctuation after || Text.isPunctuation after
  let left := !(spaceAfter || (markAfter && !(spaceBefore || markBefore)))
  let right := !(spaceBefore || (markBefore && !(spaceAfter || markAfter)))
  (left && (within || !right || markBefore), right && (within || !left || markAfter))

/-- A mark at a place among the pieces of a line, and the mark that closes what it opens. -/
structure Delimiter extends Mark where
  place : Nat
  partner : Option Nat := none
  deriving Inhabited

/-- The marks among pieces. -/
def delimitersOf (pieces : List Piece) : Array Delimiter :=
  (pieces.zipIdx.filterMap fun (p, place) ↦
    match p with
    | .mark m => some { m with place }
    | _ => none).toArray

/-- Whether two marks cannot be partners because of the lengths of their runs. -/
def isOddMatch (opener closer : Mark) : Bool :=
  (opener.closes || closer.opens) && (opener.run + closer.run) % 3 == 0 &&
    !(opener.run % 3 == 0 && closer.run % 3 == 0)

/-- Pairing of marks, of which those before some place have been looked at. -/
structure Pairing where
  marks : Array Delimiter
  /-- For each mark that has been looked at, how many marks before it can be skipped. -/
  skips : Array Nat := #[]
  /-- The first mark of the current run. -/
  start : Nat := 0
  /-- The place of the last mark, as long as the current run may go on. -/
  last : Option Nat := none
  /-- Below which mark there is no partner, for kinds of closing marks. -/
  floors : List ((List Char × Bool × Nat) × Nat) := []

/-- The nearest mark below `n`, and not below `floor`, that can be the partner of a closing one. -/
def Pairing.opener? (p : Pairing) (closer : Delimiter) (floor : Nat) (n : Nat) : Option Nat :=
  match n with
  | 0 => none
  | i + 1 =>
    if i + 1 ≤ floor then none
    else
      let m := p.marks.getD i default
      if m.text == closer.text && m.opens && m.partner.isNone && !isOddMatch m.toMark closer.toMark
      then some i
      else p.opener? closer floor (i - p.skips.getD i 0)
termination_by n
decreasing_by exact Nat.lt_succ_of_le (Nat.sub_le _ _)

/-- Looks at the mark with a number. -/
def Pairing.step (p : Pairing) (i : Nat) : Pairing :=
  let closer := p.marks.getD i default
  let p := { p with skips := p.skips.push 0 }
  let sameRun := (p.marks.getD p.start default).text == closer.text &&
    p.last.map (· + 1) == some closer.place
  let p := { p with start := if sameRun then p.start else i, last := some closer.place }
  if !closer.closes then p
  else
    let kind := (closer.text, closer.opens, closer.run % 3)
    let floor := (p.floors.lookup kind).getD 0
    let below := p.start - p.skips.getD p.start 0
    match p.opener? closer floor below with
    | none => { p with floors := (kind, below) :: p.floors }
    | some o =>
      let opener := p.marks.getD o default
      let jump := if 0 < o && !(p.marks.getD (o - 1) default).opens then p.skips.getD (o - 1) 0 + 1
        else 0
      { p with
        skips := (p.skips.setIfInBounds i (i - o + jump)).setIfInBounds o jump
        marks := (p.marks.setIfInBounds i { closer with opens := false }).setIfInBounds o
          { opener with partner := some i, closes := false }
        last := none }

def pairMarks (marks : Array Delimiter) : Array Delimiter :=
  ((List.range marks.size).foldl Pairing.step { marks }).marks

/-- What a mark becomes. -/
inductive Role where
  | text
  | nothing
  | opens (type tag : String)
  | closes (type tag : String)

abbrev Roles := List (Nat × Role)

/-- The role of a struck out pair. -/
def strikeRoles (marks : Array Delimiter) : Roles :=
  marks.toList.flatMap fun m ↦
    match m.partner with
    | some p =>
      if m.text.head? == some '~' then
        [(m.place, .opens "s_open" "s"), ((marks.getD p default).place, .closes "s_close" "s")]
      else []
    | none => []

/-- Whether the mark with a number and the one before it are the opening marks of one strong
emphasis, given the partner of the former. -/
def isStrong (marks : Array Delimiter) (i p : Nat) : Bool :=
  let m := marks.getD i default
  let outer := marks.getD (i - 1) default
  0 < i && outer.partner == some (p + 1) && outer.text == m.text && outer.place + 1 == m.place &&
    (marks.getD (p + 1) default).place == (marks.getD p default).place + 1

def emphasisRoles (marks : Array Delimiter) : Nat → Roles
  | 0 => []
  | i + 1 =>
    let m := marks.getD i default
    match m.partner with
    | none => emphasisRoles marks i
    | some p =>
      if m.text.head? == some '~' then emphasisRoles marks i
      else
        let closer := (marks.getD p default).place
        if isStrong marks i p then
          match i with
          | 0 => []
          | j + 1 =>
            [(m.place, .opens "strong_open" "strong"), (closer, .closes "strong_close" "strong"),
              (m.place - 1, .nothing), (closer + 1, .nothing)] ++ emphasisRoles marks j
        else
          [(m.place, .opens "em_open" "em"), (closer, .closes "em_close" "em")] ++
            emphasisRoles marks i

def pieceTokens (roles : Roles) (place : Nat) : Piece → List Token
  | .text s | .literal s => [Token.text s]
  | .tokens ts => ts
  | .mark m =>
    match (roles.lookup place).getD .text with
    | .text => [Token.text m.text]
    | .nothing => []
    | .opens type tag => [Token.opening type tag]
    | .closes type tag => [Token.closing type tag]

/-- Whether a piece closes struck out text. -/
def closesStrike (ts : List Token) : Bool :=
  match ts with
  | [t] => t.type == "s_close"
  | _ => false

/-- The places of single tildes directly before the end of struck out text. -/
def loneTildes (pieces : List Piece) (roles : Roles) : List Nat :=
  (roles.filterMap fun (place, role) ↦
    match role, place with
    | .closes "s_close" _, before + 1 =>
      match pieces[before]? with
      | some (.text ['~']) => some before
      | _ => none
    | _, _ => none).reverse

/-- Moves the tokens at a place behind the ends of struck out text that follow. -/
def moveBehindStrikes (parts : Array (List Token)) (i : Nat) : Array (List Token) :=
  let n := ((parts.toList.drop (i + 1)).takeWhile closesStrike).length
  (parts.setIfInBounds i (parts.getD (i + n) [])).setIfInBounds (i + n) (parts.getD i [])

def resolve (pieces : List Piece) : List Token :=
  let marks := pairMarks (delimitersOf pieces)
  let strikes := strikeRoles marks
  let roles := strikes ++ emphasisRoles marks marks.size
  let parts := (pieces.zipIdx.map fun (p, place) ↦ pieceTokens roles place p).toArray
  ((loneTildes pieces strikes).foldl moveBehindStrikes parts).toList.flatten

end SafeMarkdown.Markdown
