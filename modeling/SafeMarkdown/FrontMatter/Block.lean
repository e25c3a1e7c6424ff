import SafeMarkdown.FrontMatter
import SafeMarkdown.Log
import SafeMarkdown.Yaml.Load

/-!
# The front matter block

A document may start with a block of metadata between two lines of three hyphens. What lies between
the lines is YAML and has to be a mapping; what follows the second one is the body. A mark of the
byte order before the block does not count. A block that cannot be read either stops the load or,
after a warning, counts as empty.
-/

namespace SafeMarkdown.FrontMatter

def isFence (line : List Char) : Bool :=
  "---".toList.isPrefixOf line && (line.drop 3).all Text.isSpaceOrTab

def dropReturn (line : List Char) : List Char :=
  if line.getLast? == some '\r' then line.dropLast else line

/-- What lies before the first closing line among lines, and what lies behind it. The last line has
no line end. -/
def untilFence : List (List Char) → Option (List Char × List Char)
  | [] => none
  | [last] => if isFence last then some ([], []) else none
  | line :: rest =>
    if isFence (dropReturn line) then some ([], ['\n'].intercalate rest)
    else (untilFence rest).map fun (block, body) ↦ (line ++ '\n' :: block, body)

/-- A text without a mark of the byte order at its start. -/
def dropMark (s : List Char) : List Char :=
  match s with
  | c :: rest => if c.toNat = 0xfeff then rest else s
  | [] => []

/-- How a text starts: with no block, with one that does not end, or with the text of a block, which
its body follows. -/
inductive Split where
  | none
  | unterminated
  | block (yaml body : List Char)

/-- Splits a text after its block. -/
def split (s : List Char) : Split :=
  match Text.splitAtEach (· == '\n') s with
  | first :: line :: rest =>
    if isFence (dropReturn first) then
      match untilFence (line :: rest) with
      | some (yaml, body) => .block yaml body
      | .none => .unterminated
    else .none
  | _ => .none

/-- The mapping that a block holds, in front of a body. -/
def readBlock (yaml : List Char) (body : String) : Except Failure Fields :=
  match Yaml.load yaml with
  | .error .malformed => .error (.metadata "Invalid YAML front matter" body)
  | .error (.scalar cause) => .error cause.failure
  | .ok d =>
    if !d.isTruthy then .ok []
    else match d.toValue with
      | .obj fields => .ok fields
      | _ =>
        .error (.metadata ("Invalid YAML front matter: expected a mapping, got " ++ d.kindName) body)

/-- The fields of a text's block, and its body. -/
def extract (text : String) : Except Failure (Fields × String) :=
  let s := dropMark text.toList
  match split s with
  | .none => .ok ([], String.ofList s)
  | .unterminated => .error (.metadata "Unterminated front matter block" (String.ofList s))
  | .block yaml body => do
    let body := String.ofList body
    return (← readBlock yaml body, body)

def validate (fields : Fields) (body : String) : Except Failure FrontMatter :=
  match ofFields fields with
  | .error (.invalid faults) =>
    .error (.metadata
      ("Invalid front matter fields: " ++ Text.join ", " (faults.map (·.1))) body)
  | r => r

/-- The front matter of a text and its body; a block that cannot be read is a failure. -/
def parseStrict (text : String) : Except Failure (FrontMatter × String) := do
  let (fields, body) ← extract text
  return (← validate fields body, body)

/-- The front matter of a text and its body. Unless it is strict, a block that cannot be read counts
as empty. -/
def parse (text : String) (strict : Bool) : Logged (FrontMatter × String) :=
  match parseStrict text with
  | .ok r => pure r
  | .error (.metadata message body) => do
    if strict then throw (.metadata message body)
    Logged.warn .frontMatter (message ++ "; continuing with empty front matter")
    return ({}, body)
  | .error e => throw e

end SafeMarkdown.FrontMatter
