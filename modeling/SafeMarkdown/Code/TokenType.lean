/-!
# Token types

The parts of a program are classified from the general to the special: a type is the path of its
names, and the empty path is the type of everything. The standard types have a short class; any
other type has the class of its nearest ancestor that has one.
-/

namespace SafeMarkdown.Code

/-- The type of a part of a program, from the general to the special. -/
abbrev TokenType := List String

namespace TokenType

/-- The classes of the standard types; plain text has none. -/
def standardClasses : List (String × String) := [
  ("Text.Whitespace", "w"), ("Escape", "esc"), ("Error", "err"), ("Other", "x"), ("Keyword", "k"),
  ("Keyword.Constant", "kc"), ("Keyword.Declaration", "kd"), ("Keyword.Namespace", "kn"),
  ("Keyword.Pseudo", "kp"), ("Keyword.Reserved", "kr"), ("Keyword.Type", "kt"), ("Name", "n"),
  ("Name.Attribute", "na"), ("Name.Builtin", "nb"), ("Name.Builtin.Pseudo", "bp"),
  ("Name.Class", "nc"), ("Name.Constant", "no"), ("Name.Decorator", "nd"), ("Name.Entity", "ni"),
  ("Name.Exception", "ne"), ("Name.Function", "nf"), ("Name.Function.Magic", "fm"),
  ("Name.Property", "py"), ("Name.Label", "nl"), ("Name.Namespace", "nn"), ("Name.Other", "nx"),
  ("Name.Tag", "nt"), ("Name.Variable", "nv"), ("Name.Variable.Class", "vc"),
  ("Name.Variable.Global", "vg"), ("Name.Variable.Instance", "vi"), ("Name.Variable.Magic", "vm"),
  ("Literal", "l"), ("Literal.Date", "ld"), ("Literal.String", "s"), ("Literal.String.Affix", "sa"),
  ("Literal.String.Backtick", "sb"), ("Literal.String.Char", "sc"),
  ("Literal.String.Delimiter", "dl"), ("Literal.String.Doc", "sd"), ("Literal.String.Double", "s2"),
  ("Literal.String.Escape", "se"), ("Literal.String.Heredoc", "sh"),
  ("Literal.String.Interpol", "si"), ("Literal.String.Other", "sx"), ("Literal.String.Regex", "sr"),
  ("Literal.String.Single", "s1"), ("Literal.String.Symbol", "ss"), ("Literal.Number", "m"),
  ("Literal.Number.Bin", "mb"), ("Literal.Number.Float", "mf"), ("Literal.Number.Hex", "mh"),
  ("Literal.Number.Integer", "mi"), ("Literal.Number.Integer.Long", "il"),
  ("Literal.Number.Oct", "mo"), ("Operator", "o"), ("Operator.Word", "ow"), ("Punctuation", "p"),
  ("Punctuation.Marker", "pm"), ("Comment", "c"), ("Comment.Hashbang", "ch"),
  ("Comment.Multiline", "cm"), ("Comment.Preproc", "cp"), ("Comment.PreprocFile", "cpf"),
  ("Comment.Single", "c1"), ("Comment.Special", "cs"), ("Generic", "g"), ("Generic.Deleted", "gd"),
  ("Generic.Emph", "ge"), ("Generic.Error", "gr"), ("Generic.Heading", "gh"),
  ("Generic.Inserted", "gi"), ("Generic.Output", "go"), ("Generic.Prompt", "gp"),
  ("Generic.Strong", "gs"), ("Generic.Subheading", "gu"), ("Generic.EmphStrong", "ges"),
  ("Generic.Traceback", "gt")]

/-- The class of a type given from the special to the general. -/
def classOfReversed : List String → String
  | [] => ""
  | name :: rest =>
    match standardClasses.lookup (".".intercalate (name :: rest).reverse) with
    | some c => c
    | none => classOfReversed rest

def cssClass (t : TokenType) : String :=
  classOfReversed t.reverse

def ofPath (s : String) : TokenType :=
  (s.splitOn ".").filter fun name ↦ !name.isEmpty

def text : TokenType := ["Text"]

def whitespace : TokenType := ["Text", "Whitespace"]

def error : TokenType := ["Error"]

def keyword : TokenType := ["Keyword"]

def constant : TokenType := ["Keyword", "Constant"]

def namespaceKeyword : TokenType := ["Keyword", "Namespace"]

def name (kinds : List String) : TokenType := "Name" :: kinds

def string (kind : String) : TokenType := ["Literal", "String", kind]

def number (kind : String) : TokenType := ["Literal", "Number", kind]

def operator : TokenType := ["Operator"]

def punctuation : TokenType := ["Punctuation"]

def comment (kind : String) : TokenType := ["Comment", kind]

def generic (kind : String) : TokenType := ["Generic", kind]

end TokenType

/-- A piece of a program and its type. -/
structure Lexeme where
  type : TokenType
  text : List Char
  deriving DecidableEq

def nonempty (ls : List Lexeme) : List Lexeme :=
  ls.filter fun l ↦ !l.text.isEmpty

end SafeMarkdown.Code
