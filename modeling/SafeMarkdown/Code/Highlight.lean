import SafeMarkdown.Code.Diff
import SafeMarkdown.Code.Json
import SafeMarkdown.Code.Script
import SafeMarkdown.Failure
import SafeMarkdown.Pipeline.Stage
import SafeMarkdown.Text.LetterCase
import SafeMarkdown.Text.Bytes

/-!
# Highlighting

The languages that can be highlighted, with the names by which a code block may ask for them. Before
lexing, a byte order mark is dropped and line ends become line feeds.

The lexemes of a program become classified spans and, where they have no class, text. Neighbouring
lexemes of one class share a span. A code block is highlighted when its language is known and
enabled and the lexemes spell its text.
-/

namespace SafeMarkdown.Code

/-- A language that can be highlighted. -/
structure Language where
  name : String
  aliases : List String
  lex : List Char → List Lexeme

/-- The languages that can be highlighted. -/
def languages : List Language := [
  ⟨"Python", ["python", "py", "sage", "python3", "py3", "bazel", "starlark", "pyi"], Script.lex⟩,
  ⟨"JSON", ["json", "json-object"], Json.lex⟩,
  ⟨"Diff", ["diff", "udiff"], Diff.lex⟩,
  ⟨"Text only", ["text"], fun s ↦ nonempty [⟨.text, s⟩]⟩]

def language? (name : String) : Option Language :=
  languages.find? fun l ↦ l.aliases.contains (Text.lowercase name)

def languageNamed (name : String) : Except Failure Language :=
  match language? name with
  | some l => .ok l
  | none => .error (.unknownLanguage name)

def prepared (s : List Char) : List Char :=
  Text.unifyLineEnds (if s.head? == some (Char.ofNat 0xfeff) then s.drop 1 else s)

def Language.lexemes (l : Language) (code : String) : List Lexeme :=
  l.lex (prepared code.toList)

/-- Whether a language, asked for under some name, is among those to highlight. -/
def Language.isEnabled (l : Language) (name : String) : Option (List String) → Bool
  | none => true
  | some enabled =>
    (Text.lowercase name :: Text.lowercase l.name :: l.aliases.map Text.lowercase).any
      enabled.contains

/-- Lexemes of one class, joined. -/
structure Run where
  cssClass : String
  text : List Char
  deriving DecidableEq

/-- The runs of lexemes; empty lexemes do not count. -/
def runs : List Lexeme → List Run
  | [] => []
  | l :: rest =>
    if l.text.isEmpty then runs rest
    else
      match runs rest with
      | [] => [⟨l.type.cssClass, l.text⟩]
      | r :: more =>
        if r.cssClass == l.type.cssClass then ⟨r.cssClass, l.text ++ r.text⟩ :: more
        else ⟨l.type.cssClass, l.text⟩ :: r :: more

def Run.node (r : Run) : Node :=
  let text := Node.ofText (String.ofList r.text)
  if r.cssClass.isEmpty then text
  else Node.element "span" [("class", .arr [.str r.cssClass])] [text]

def spans (ls : List Lexeme) : List Node :=
  (runs ls).map Run.node

/-- The name of the language that a code element asks for. -/
def askedLanguage (n : Node) : Except Failure (Option String) :=
  if n.isElement ["code"] then
    match n.data.get? "lang" with
    | some (.str name) => .ok (if name.isEmpty then none else some name)
    | some v => if v.isTruthy then .error .unsupported else .ok none
    | none => .ok none
  else .ok none

/-- The name of the language that a node is highlighted in, and its spans; nothing when it stays as
it is. -/
def highlighting (config : PipelineConfig) (n : Node) : Staged (Option (String × List Node)) := do
  match ← Staged.ofExcept (askedLanguage n) with
  | none => return none
  | some name =>
    match language? name with
    | none =>
      Staged.warn ("Unsupported code block language '" ++ name ++ "'; left unhighlighted")
      return none
    | some language =>
      if !language.isEnabled name config.languages then
        Logged.debug .highlight ("Highlighting disabled for language " ++ name)
        return none
      let text := n.textContent
      let children := spans (language.lexemes text)
      if (Node.root children).textContent != text then
        Logged.debug .highlight
          ("Lexer " ++ language.name ++ " altered code text; leaving block unhighlighted")
        return none
      return some (language.name, children)

mutual

/-- Highlights the code elements of a tree. What a highlighted element held before is no longer
there to be looked at. -/
def highlight (config : PipelineConfig) : Node → Staged Node
  | ⟨kind, tag, attrs, children, value, data⟩ => do
    match ← highlighting config ⟨kind, tag, attrs, children, value, data⟩ with
    | some (language, nodes) =>
      return ⟨kind, tag, attrs, nodes, value, Fields.set data "highlighted" (.str language)⟩
    | none =>
      let nodes ← highlightAll config children
      return ⟨kind, tag, attrs, nodes, value, data⟩

def highlightAll (config : PipelineConfig) : List Node → Staged (List Node)
  | [] => pure []
  | n :: rest => do
    let m ← highlight config n
    let ms ← highlightAll config rest
    return m :: ms

end

end SafeMarkdown.Code
