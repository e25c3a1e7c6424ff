import SafeMarkdown.Code.TokenType

/-!
# Lexing JSON

JSON with comments, one lexeme after the other and whatever the order. A string that a colon
follows, with only strings, comments and white space between, is a name.
-/

namespace SafeMarkdown.Code.Json

inductive EscapeState where
  | none
  | escape
  | unicode (missing : Nat)

def isHexDigit (c : Char) : Bool :=
  c.isDigit || ('a' ≤ c && c ≤ 'f') || ('A' ≤ c && c ≤ 'F')

/-- The length of a string after its opening quote, with the closing one; any other character than
a hexadecimal digit cuts an escape short and belongs to it. -/
def stringLength? (state : EscapeState) : List Char → Option Nat
  | [] => .none
  | c :: rest =>
    let next : EscapeState := match state with
      | .unicode (missing + 2) => if isHexDigit c then .unicode (missing + 1) else .none
      | .unicode _ => .none
      | .escape => if c == 'u' then .unicode 4 else .none
      | .none => if c == '\\' then .escape else .none
    match state with
    | .none => if c == '"' then some 1 else (stringLength? next rest).map (· + 1)
    | _ => (stringLength? next rest).map (· + 1)

def commentLength? (afterStar : Bool) : List Char → Option Nat
  | [] => none
  | c :: rest =>
    if afterStar && c == '/' then some 1
    else (commentLength? (c == '*') rest).map (· + 1)

def isBlank (c : Char) : Bool :=
  c == ' ' || c == '\n' || c == '\r' || c == '\t'

def isConstantChar (c : Char) : Bool :=
  "truefalsenull".toList.contains c

def isNumberStart (c : Char) : Bool :=
  c == '-' || c.isDigit

def isFractionChar (c : Char) : Bool :=
  c == '.' || c == 'e' || c == 'E' || c == '+'

def isPunctuation (c : Char) : Bool :=
  "\x7b\x7d[],".toList.contains c

def run (type : TokenType) (p : Char → Bool) (c : Char) (rest : List Char) : Lexeme :=
  ⟨type, c :: rest.takeWhile p⟩

def upTo (type : TokenType) (s : List Char) : Option Nat → Lexeme
  | some n => ⟨type, s.take n⟩
  | none => ⟨.error, s⟩

def lexeme (c : Char) (rest : List Char) : Lexeme :=
  if c == '"' then
    upTo (.string "Double") (c :: rest) ((stringLength? .none rest).map (· + 1))
  else if isBlank c then run .whitespace isBlank c rest
  else if c == 'f' || c == 'n' || c == 't' then run .constant isConstantChar c rest
  else if isNumberStart c then
    let l := run .text (fun d ↦ isNumberStart d || isFractionChar d) c rest
    ⟨.number (if l.text.any isFractionChar then "Float" else "Integer"), l.text⟩
  else if c == ':' || isPunctuation c then run .punctuation isPunctuation c rest
  else if c == '/' then
    match rest with
    | '/' :: _ => run (.comment "Single") (· != '\n') c rest
    | '*' :: more =>
      upTo (.comment "Multiline") (c :: rest) ((commentLength? false more).map (· + 2))
    | _ => ⟨.error, [c]⟩
  else ⟨.error, [c]⟩

/-- The lexemes of a text in so many steps. -/
def lexemes : Nat → List Char → List Lexeme
  | 0, _ => []
  | _, [] => []
  | fuel + 1, c :: rest =>
    let l := lexeme c rest
    l :: lexemes fuel (rest.drop (l.text.length - 1))

def isTransparent (l : Lexeme) : Bool :=
  l.type == .string "Double" || l.type == .whitespace || l.type == .comment "Single" ||
    l.type == .comment "Multiline"

/-- Makes names of the strings that a colon follows; also tells whether a colon comes next. -/
def markNames : List Lexeme → List Lexeme × Bool
  | [] => ([], false)
  | l :: rest =>
    let (ls, colon) := markNames rest
    let here := if isTransparent l then colon else l.text.head? == some ':'
    if colon && l.type == .string "Double" then (⟨.name ["Tag"], l.text⟩ :: ls, here)
    else (l :: ls, here)

def lex (s : List Char) : List Lexeme :=
  (markNames (lexemes s.length s)).1

end SafeMarkdown.Code.Json
