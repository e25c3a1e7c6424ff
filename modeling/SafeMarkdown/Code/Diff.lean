import SafeMarkdown.Code.TokenType
import SafeMarkdown.Text.Blank

/-!
# Lexing differences

A listing of differences is lexed line by line: the first characters of a line decide what it is. A
last line without a line feed is no line, and each of its characters is an error.
-/

namespace SafeMarkdown.Code.Diff

/-- What follows a digit, or a digit and a comma with further digits. -/
def afterFirstNumber? (s : List Char) : Option (List Char) :=
  match s with
  | c :: rest =>
    if Text.isDecimalDigit c then
      match rest with
      | ',' :: d :: more => if Text.isDecimalDigit d then some (more.dropWhile Text.isDecimalDigit) else some rest
      | _ => some rest
    else none
  | [] => none

/-- Whether digits, perhaps with a comma and further digits, are all that is left. -/
def isSecondNumber (s : List Char) : Bool :=
  let rest := s.dropWhile Text.isDecimalDigit
  rest.length < s.length &&
    match rest with
    | [] => true
    | ',' :: more => !more.isEmpty && more.all Text.isDecimalDigit
    | _ => false

def isChangeCommand (line : List Char) : Bool :=
  match afterFirstNumber? line with
  | some (c :: rest) => (c == 'a' || c == 'c' || c == 'd') && isSecondNumber rest
  | _ => false

def startsWithAny (line : List Char) (starts : List String) : Bool :=
  starts.any fun s ↦ s.toList.isPrefixOf line

def lineLexemes (line : List Char) : List Lexeme :=
  if line.head? == some ' ' then [⟨.whitespace, [' ']⟩, ⟨.text, line.drop 1⟩]
  else if startsWithAny line ["!"] || line == "---".toList then [⟨.generic "Strong", line⟩]
  else if startsWithAny line ["< ", "-"] then [⟨.generic "Deleted", line⟩]
  else if startsWithAny line ["> ", "+"] then [⟨.generic "Inserted", line⟩]
  else if startsWithAny line ["@"] || isChangeCommand line then [⟨.generic "Subheading", line⟩]
  else if startsWithAny line ["Index", "index", "diff", "="] then [⟨.generic "Heading", line⟩]
  else [⟨.text, line⟩]

/-- The lexemes of a text after the characters of a line that was begun, last first. -/
def lexFrom (line : List Char) : List Char → List Lexeme
  | [] => line.reverse.map fun c ↦ ⟨.error, [c]⟩
  | c :: rest =>
    if c == '\n' then lineLexemes line.reverse ++ ⟨.whitespace, ['\n']⟩ :: lexFrom [] rest
    else lexFrom (c :: line) rest

def lex (s : List Char) : List Lexeme :=
  nonempty (lexFrom [] s)

end SafeMarkdown.Code.Diff
