import SafeMarkdown.Code.TokenType
import SafeMarkdown.Text.Alphanumeric
import SafeMarkdown.Text.Blank

/-!
# Lexing the scripting language

The first rule that applies where the lexer stands gives one lexeme or a few and decides what is
expected next: anything, the name after `def` or `class`, the names of an import, or the rest of a
string. What no rule knows is an error, except for a line feed, after which anything is expected.
The keywords and the names that have a meaning of their own are listed first.
-/

namespace SafeMarkdown.Code.Script

def keywords : List String := [
  "yield from", "assert", "async", "await", "break", "continue", "del", "elif", "else", "except",
  "finally", "for", "global", "if", "lambda", "pass", "raise", "nonlocal", "return", "try", "while",
  "yield", "as", "with"]

def constantWords : List String := ["True", "False", "None"]

def operatorWords : List String := ["in", "is", "and", "or", "not"]

/-- Functions and types that need no import. -/
def builtins : List String := [
  "__import__", "abs", "aiter", "all", "any", "bin", "bool", "bytearray", "breakpoint", "bytes",
  "callable", "chr", "classmethod", "compile", "complex", "delattr", "dict", "dir", "divmod",
  "enumerate", "eval", "filter", "float", "format", "frozendict", "frozenset", "getattr", "globals",
  "hasattr", "hash", "hex", "id", "input", "int", "isinstance", "issubclass", "iter", "len", "list",
  "locals", "map", "max", "memoryview", "min", "next", "object", "oct", "open", "ord", "pow",
  "print", "property", "range", "repr", "reversed", "round", "sentinel", "set", "setattr", "slice",
  "sorted", "staticmethod", "str", "sum", "super", "tuple", "type", "vars", "zip"]

def pseudoBuiltins : List String := ["self", "Ellipsis", "NotImplemented", "cls"]

/-- Exceptions that need no import. -/
def exceptions : List String := [
  "ArithmeticError", "AssertionError", "AttributeError", "BaseException", "BufferError",
  "BytesWarning", "DeprecationWarning", "EOFError", "EnvironmentError", "Exception",
  "FloatingPointError", "FutureWarning", "GeneratorExit", "IOError", "ImportError", "ImportWarning",
  "IndentationError", "IndexError", "KeyError", "KeyboardInterrupt", "LookupError", "MemoryError",
  "NameError", "NotImplementedError", "OSError", "OverflowError", "PendingDeprecationWarning",
  "ReferenceError", "ResourceWarning", "RuntimeError", "RuntimeWarning", "StopIteration",
  "SyntaxError", "SyntaxWarning", "SystemError", "SystemExit", "TabError", "TypeError",
  "UnboundLocalError", "UnicodeDecodeError", "UnicodeEncodeError", "UnicodeError",
  "UnicodeTranslateError", "UnicodeWarning", "UserWarning", "ValueError", "VMSError", "Warning",
  "WindowsError", "ZeroDivisionError", "BlockingIOError", "ChildProcessError", "ConnectionError",
  "BrokenPipeError", "ConnectionAbortedError", "ConnectionRefusedError", "ConnectionResetError",
  "FileExistsError", "FileNotFoundError", "InterruptedError", "IsADirectoryError",
  "NotADirectoryError", "PermissionError", "ProcessLookupError", "TimeoutError",
  "StopAsyncIteration", "ModuleNotFoundError", "RecursionError", "EncodingWarning"]

/-- Methods that the language calls by itself. -/
def magicFunctions : List String := [
  "__abs__", "__add__", "__aenter__", "__aexit__", "__aiter__", "__and__", "__anext__", "__await__",
  "__bool__", "__bytes__", "__call__", "__complex__", "__contains__", "__del__", "__delattr__",
  "__delete__", "__delitem__", "__dir__", "__divmod__", "__enter__", "__eq__", "__exit__",
  "__float__", "__floordiv__", "__format__", "__ge__", "__get__", "__getattr__", "__getattribute__",
  "__getitem__", "__gt__", "__hash__", "__iadd__", "__iand__", "__ifloordiv__", "__ilshift__",
  "__imatmul__", "__imod__", "__imul__", "__index__", "__init__", "__instancecheck__", "__int__",
  "__invert__", "__ior__", "__ipow__", "__irshift__", "__isub__", "__iter__", "__itruediv__",
  "__ixor__", "__le__", "__len__", "__length_hint__", "__lshift__", "__lt__", "__matmul__",
  "__missing__", "__mod__", "__mul__", "__ne__", "__neg__", "__new__", "__next__", "__or__",
  "__pos__", "__pow__", "__prepare__", "__radd__", "__rand__", "__rdivmod__", "__repr__",
  "__reversed__", "__rfloordiv__", "__rlshift__", "__rmatmul__", "__rmod__", "__rmul__", "__ror__",
  "__round__", "__rpow__", "__rrshift__", "__rshift__", "__rsub__", "__rtruediv__", "__rxor__",
  "__set__", "__setattr__", "__setitem__", "__str__", "__sub__", "__subclasscheck__", "__truediv__",
  "__xor__"]

/-- Attributes that the language sets by itself. -/
def magicVariables : List String := [
  "__annotations__", "__bases__", "__class__", "__closure__", "__code__", "__defaults__",
  "__dict__", "__doc__", "__file__", "__func__", "__globals__", "__kwdefaults__", "__module__",
  "__mro__", "__name__", "__objclass__", "__qualname__", "__self__", "__slots__", "__weakref__"]

inductive Escapes where
  | none
  /-- A byte string: no character is named by its code point. -/
  | bytes
  | all
  deriving DecidableEq

/-- A string that was opened. -/
structure Opened where
  escapes : Escapes
  quote : Char
  triple : Bool
  deriving DecidableEq

inductive Expected where
  | anything
  | functionName
  | className
  | importNames
  | moduleName
  | stringRest (s : Opened)
  deriving DecidableEq

/-- What a rule found: lexemes, and what is expected next. -/
abbrev Found := List Lexeme × Expected

/-- One lexeme of so many characters; of none it is nothing. -/
def found (type : TokenType) (s : List Char) (n : Nat) (next : Expected) : Option Found :=
  if n = 0 then none else some ([⟨type, s.take n⟩], next)

def firstOf (rules : List (Unit → Option Found)) : Option Found :=
  rules.findSome? fun r ↦ r ()

def atWordEnd (s : List Char) : Bool :=
  !s.head?.any Text.isWordChar

/-- The length of the first of some words that a text starts with and that ends there. -/
def wordLength (words : List String) (s : List Char) : Nat :=
  match words.find? fun w ↦ w.toList.isPrefixOf s && atWordEnd (s.drop w.length) with
  | some w => w.length
  | none => 0

def isNameStart (c : Char) : Bool :=
  Text.isWordChar c && !Text.isDecimalDigit c

def nameLength (s : List Char) : Nat :=
  match s with
  | c :: rest => if isNameStart c then 1 + (rest.takeWhile Text.isWordChar).length else 0
  | [] => 0

/-- The length of the white space at the start of a text, in which a backslash may stand before each
blank. -/
def gapLength : List Char → Nat
  | [] => 0
  | [c] => if Text.isBlank c then 1 else 0
  | c :: d :: rest =>
    if Text.isBlank c then 1 + gapLength (d :: rest)
    else if c == '\\' && Text.isBlank d then 2 + gapLength rest
    else 0

def blankLength (s : List Char) : Nat :=
  (s.takeWhile Text.isBlank).length

/-! ## Numbers -/

/-- The length of digits of a kind, each of which may follow an underscore. -/
def groupedLength (p : Char → Bool) : List Char → Nat
  | [] => 0
  | [c] => if p c then 1 else 0
  | c :: d :: rest =>
    if p c then 1 + groupedLength p (d :: rest)
    else if c == '_' && p d then 2 + groupedLength p rest
    else 0

def digitsLength (s : List Char) : Nat :=
  if s.head?.any Text.isDecimalDigit then groupedLength Text.isDecimalDigit s else 0

def exponentLength (s : List Char) : Nat :=
  match s with
  | e :: rest =>
    if e == 'e' || e == 'E' then
      let signed := rest.head?.any fun c ↦ c == '+' || c == '-'
      let n := digitsLength (if signed then rest.drop 1 else rest)
      if n = 0 then 0 else n + if signed then 2 else 1
    else 0
  | [] => 0

def pointLength (s : List Char) : Nat :=
  let whole := digitsLength s
  match s.drop whole with
  | '.' :: rest =>
    let fraction := digitsLength rest
    if whole = 0 && fraction = 0 then 0
    else
      let n := whole + 1 + fraction
      n + exponentLength (s.drop n)
  | _ => 0

/-- The length of a number with an exponent and no point. -/
def scaledLength (s : List Char) : Nat :=
  let whole := digitsLength s
  let power := exponentLength (s.drop whole)
  if whole = 0 || power = 0 then 0
  else whole + power + if (s.drop (whole + power)).head? == some 'j' then 1 else 0

/-- The length of a number whose base a letter after a zero tells. -/
def basedLength (lower upper : Char) (p : Char → Bool) (s : List Char) : Nat :=
  match s with
  | '0' :: c :: rest =>
    let n := groupedLength p rest
    if (c == lower || c == upper) && n != 0 then n + 2 else 0
  | _ => 0

def isHexDigit (c : Char) : Bool :=
  c.isDigit || ('a' ≤ c && c ≤ 'f') || ('A' ≤ c && c ≤ 'F')

def isOctalDigit (c : Char) : Bool :=
  '0' ≤ c && c ≤ '7'

def number? (s : List Char) : Option Found :=
  firstOf [
    fun _ ↦ found (.number "Float") s (pointLength s) .anything,
    fun _ ↦ found (.number "Float") s (scaledLength s) .anything,
    fun _ ↦ found (.number "Oct") s (basedLength 'o' 'O' isOctalDigit s) .anything,
    fun _ ↦ found (.number "Bin") s (basedLength 'b' 'B' (fun c ↦ c == '0' || c == '1') s) .anything,
    fun _ ↦ found (.number "Hex") s (basedLength 'x' 'X' isHexDigit s) .anything,
    fun _ ↦ found (.number "Integer") s (digitsLength s) .anything]

/-! ## Strings -/

def quoteKind (quote : Char) : String :=
  if quote == '"' then "Double" else "Single"

/-- The quotes that open a string: which ones, and their number. -/
def openingQuotes? (s : List Char) : Option (Char × Bool) :=
  match s with
  | q :: rest =>
    if q == '"' || q == '\'' then some (q, [q, q].isPrefixOf rest) else none
  | [] => none

/-- The letters before a string that make it raw or a byte string. -/
def stringPrefixes : List (String × Escapes) := [
  ("rb", .none), ("br", .none), ("r", .none), ("b", .bytes), ("u", .all), ("", .all)]

def stringStart? (s : List Char) : Option Found :=
  stringPrefixes.findSome? fun (letters, escapes) ↦
    let affix := s.take letters.length
    if affix.map Char.toLower == letters.toList then
      (openingQuotes? (s.drop letters.length)).map fun (quote, triple) ↦
        let quotes := List.replicate (if triple then 3 else 1) quote
        (nonempty [⟨.string "Affix", affix⟩, ⟨.string (quoteKind quote), quotes⟩],
          .stringRest ⟨escapes, quote, triple⟩)
    else none

/-- The number of characters up to the end of the first place where a text occurs in another. -/
def lengthThrough (word : List Char) : List Char → Option Nat
  | [] => none
  | c :: rest =>
    if word.isPrefixOf (c :: rest) then some word.length
    else (lengthThrough word rest).map (· + 1)

/-- A string that documents: white space at the start of a line, and a whole string in three
quotes. -/
def docString? (quote : Char) (s : List Char) : Option Found :=
  let space := s.takeWhile Text.isBlank
  let body := s.dropWhile Text.isBlank
  let affix := (body.take 2).takeWhile fun c ↦ "rRuUbB".toList.contains c
  let quotes := List.replicate 3 quote
  let opened := body.drop affix.length
  if quotes.isPrefixOf opened then
    (lengthThrough quotes (opened.drop 3)).map fun n ↦
      (nonempty [⟨.whitespace, space⟩, ⟨.string "Affix", affix⟩,
        ⟨.string "Doc", opened.take (n + 3)⟩], .anything)
  else none

def hexDigitsFollow (n : Nat) (s : List Char) : Bool :=
  (s.take n).length == n && (s.take n).all isHexDigit

def namedEscapeLength (s : List Char) : Nat :=
  match s with
  | 'N' :: '\x7b' :: rest =>
    let name := rest.takeWhile fun c ↦ c != '\x7d' && c != '\n'
    if (rest.drop name.length).head? == some '\x7d' then name.length + 3 else 0
  | 'u' :: rest => if hexDigitsFollow 4 rest then 5 else 0
  | 'U' :: rest => if hexDigitsFollow 8 rest then 9 else 0
  | _ => 0

def byteEscapeLength (s : List Char) : Nat :=
  match s with
  | c :: rest =>
    if "\\abfnrtv\"'\n".toList.contains c then 1
    else if c == 'x' then if hexDigitsFollow 2 rest then 3 else 0
    else ((s.take 3).takeWhile isOctalDigit).length
  | [] => 0

def escapeLength (escapes : Escapes) (s : List Char) : Nat :=
  match escapes, s with
  | .none, _ => 0
  | _, '\\' :: rest =>
    let named := if escapes = .all then namedEscapeLength rest else 0
    let n := if named = 0 then byteEscapeLength rest else named
    if n = 0 then 0 else n + 1
  | _, _ => 0

def widthLength (s : List Char) : Nat :=
  if s.head? == some '*' then 1 else (s.takeWhile Char.isDigit).length

/-- Whether a character ends a placeholder that starts with a percent sign. -/
def isConversion (c : Char) : Bool :=
  "EFGXcdefgiorsaux%".toList.contains c

/-- The length of what a condition accepts of a character at the start of a text. -/
def optional (p : Char → Bool) (s : List Char) : Nat :=
  if s.head?.any p then 1 else 0

/-- The length of a name in round brackets. -/
def keyLength (s : List Char) : Nat :=
  match s with
  | '(' :: rest =>
    let word := rest.takeWhile Text.isWordChar
    if !word.isEmpty && (rest.drop word.length).head? == some ')' then word.length + 2 else 0
  | _ => 0

/-- The length of a placeholder that starts with a percent sign. -/
def percentLength (s : List Char) : Nat :=
  match s with
  | '%' :: rest =>
    let s1 := rest.drop (keyLength rest)
    let s2 := s1.dropWhile fun c ↦ "-#0 +".toList.contains c
    let s3 := s2.drop (widthLength s2)
    let s4 := match s3 with
      | '.' :: more => if widthLength more = 0 then s3 else more.drop (widthLength more)
      | _ => s3
    let s5 := s4.drop (optional (fun c ↦ c == 'h' || c == 'l' || c == 'L') s4)
    match s5 with
    | c :: after => if isConversion c then s.length - after.length else 0
    | [] => 0
  | _ => 0

/-- What follows the attributes and subscripts of a field name, in so many steps. -/
def afterSelectors : Nat → List Char → List Char
  | 0, s => s
  | fuel + 1, s =>
    match s with
    | '.' :: rest =>
      let word := rest.takeWhile Text.isWordChar
      if word.isEmpty then s else afterSelectors fuel (rest.drop word.length)
    | '[' :: rest =>
      let inner := rest.takeWhile (· != ']')
      match rest.drop inner.length with
      | _ :: after => if inner.isEmpty then s else afterSelectors fuel after
      | [] => s
    | _ => s

/-- What follows the part of a format after its alignment, with the closing brace. -/
def afterFormat (s : List Char) : Option (List Char) :=
  let s1 := s.drop (optional (fun c ↦ "-+ ".toList.contains c) s)
  let s2 := s1.drop (optional (· == '#') s1)
  let s3 := s2.drop (optional (· == '0') s2)
  let s4 := s3.dropWhile Text.isDecimalDigit
  let s5 := s4.drop (optional (· == ',') s4)
  let s6 := match s5 with
    | '.' :: d :: more => if Text.isDecimalDigit d then more.dropWhile Text.isDecimalDigit else s5
    | _ => s5
  let s7 := s6.drop (optional (fun c ↦ "EFGXbcdefgnosx%".toList.contains c) s6)
  match s7 with
  | '\x7d' :: after => some after
  | _ => none

def isAlignment (c : Char) : Bool :=
  "<>=^".toList.contains c

def afterAlignedFormat (s : List Char) : Option (List Char) :=
  let filled := match s with
    | c :: d :: rest => if c != '\n' && isAlignment d then afterFormat rest else none
    | _ => none
  let aligned := match s with
    | c :: rest => if isAlignment c then afterFormat rest else none
    | [] => none
  (filled.or aligned).or (afterFormat s)

def braceLength (s : List Char) : Nat :=
  match s with
  | '\x7b' :: rest =>
    let word := rest.takeWhile Text.isWordChar
    let s1 := if word.isEmpty then rest else afterSelectors rest.length (rest.drop word.length)
    let s2 := match s1 with
      | '!' :: c :: more => if c == 's' || c == 'r' || c == 'a' then more else s1
      | _ => s1
    let after := match s2 with
      | ':' :: more => afterAlignedFormat more
      | '\x7d' :: more => some more
      | _ => none
    match after with
    | some more => s.length - more.length
    | none => 0
  | _ => 0

def isPlain (c : Char) : Bool :=
  !"\\'\"%\x7b\n".toList.contains c

/-- What comes next inside a string. -/
def inString (o : Opened) (s : List Char) : Option Found :=
  let type := TokenType.string (quoteKind o.quote)
  let stay := Expected.stringRest o
  let closing := List.replicate (if o.triple then 3 else 1) o.quote
  let pair := s.take 2
  let closed : List (Unit → Option Found) := [
    fun _ ↦ found (.string "Escape") s (escapeLength o.escapes s) stay,
    fun _ ↦ if closing.isPrefixOf s then found type s closing.length .anything else none,
    fun _ ↦
      if !o.triple && (pair == ['\\', '\\'] || pair == ['\\', o.quote] || pair == ['\\', '\n']) then
        found (.string "Escape") s 2 stay
      else none]
  let content : List (Unit → Option Found) := [
    fun _ ↦ found (.string "Interpol") s (percentLength s) stay,
    fun _ ↦ found (.string "Interpol") s (braceLength s) stay,
    fun _ ↦ found type s (s.takeWhile isPlain).length stay,
    fun _ ↦ found type s (optional (fun c ↦ "'\"\\%".toList.contains c) s) stay,
    fun _ ↦ found type s ((s.take 2).takeWhile (· == '\x7b')).length stay,
    fun _ ↦ if o.triple then found type s (optional (· == '\n') s) stay else none]
  firstOf (closed ++ content)

/-! ## Names and imports -/

/-- The names of a function: the name itself, or a method that the language calls. -/
def magicFunction? (s : List Char) (next : Expected) : Option Found :=
  found (.name ["Function", "Magic"]) s (wordLength magicFunctions s) next

/-- A keyword with white space after it, and what is expected then. -/
def declaration? (word : String) (type : TokenType) (next : Expected) (s : List Char) :
    Option Found :=
  let n := gapLength (s.drop word.length)
  if word.toList.isPrefixOf s && n != 0 then
    some ([⟨type, s.take word.length⟩, ⟨.whitespace, (s.drop word.length).take n⟩], next)
  else none

/-- What comes next among imported names. -/
def inImport (s : List Char) : Option Found :=
  let before := blankLength s
  let rest := s.drop before
  let renamed : Unit → Option Found := fun _ ↦
    let after := blankLength (rest.drop 2)
    if before != 0 && "as".toList.isPrefixOf rest && after != 0 then
      some ([⟨.whitespace, s.take before⟩, ⟨.keyword, rest.take 2⟩,
        ⟨.whitespace, (rest.drop 2).take after⟩], .importNames)
    else none
  let separated : Unit → Option Found := fun _ ↦
    if rest.head? == some ',' then
      some (nonempty [⟨.whitespace, s.take before⟩, ⟨.operator, [',']⟩,
        ⟨.whitespace, (rest.drop 1).takeWhile Text.isBlank⟩], .importNames)
    else none
  firstOf [renamed,
    fun _ ↦ found (.name ["Namespace"]) s (optional (· == '.') s) .importNames,
    fun _ ↦ found (.name ["Namespace"]) s (nameLength s) .importNames,
    separated]

/-- What comes next in the name of the module imported from. -/
def inModule (s : List Char) : Option Found :=
  let before := blankLength s
  let rest := s.drop before
  let imported : Unit → Option Found := fun _ ↦
    if before != 0 && wordLength ["import"] rest != 0 then
      some ([⟨.whitespace, s.take before⟩, ⟨.namespaceKeyword, rest.take 6⟩], .anything)
    else none
  firstOf [imported,
    fun _ ↦ found (.name ["Namespace"]) s (optional (· == '.') s) .moduleName,
    fun _ ↦ found .constant s (wordLength ["None"] s) .anything,
    fun _ ↦ found (.name ["Namespace"]) s (nameLength s) .moduleName]

/-! ## Expressions and statements -/

def operatorLength (s : List Char) : Nat :=
  if ["!=", "==", "<<", ">>", ":="].any fun o ↦ o.toList.isPrefixOf s then 2
  else optional (fun c ↦ "-~+/*%=<>&^|.".toList.contains c) s

def decoratorLength (s : List Char) : Nat :=
  match s with
  | '@' :: rest => if nameLength rest = 0 then 0 else nameLength rest + 1
  | _ => 0

/-- What comes next in an expression, after a character. -/
def expression? (before : Option Char) (s : List Char) : Option Found :=
  let unlessMember (n : Nat) : Nat := if before == some '.' then 0 else n
  firstOf [
    fun _ ↦ stringStart? s,
    fun _ ↦
      found .text s (s.takeWhile fun c ↦ Text.isBlank c && c != '\n').length .anything,
    fun _ ↦ number? s,
    fun _ ↦ found .operator s (operatorLength s) .anything,
    fun _ ↦ found .punctuation s (optional (fun c ↦ "[]\x7b\x7d:(),;".toList.contains c) s) .anything,
    fun _ ↦ found ["Operator", "Word"] s (wordLength operatorWords s) .anything,
    fun _ ↦ found (.name ["Builtin"]) s (unlessMember (wordLength builtins s)) .anything,
    fun _ ↦
      found (.name ["Builtin", "Pseudo"]) s (unlessMember (wordLength pseudoBuiltins s)) .anything,
    fun _ ↦ found (.name ["Exception"]) s (unlessMember (wordLength exceptions s)) .anything,
    fun _ ↦ magicFunction? s .anything,
    fun _ ↦ found (.name ["Variable", "Magic"]) s (wordLength magicVariables s) .anything,
    fun _ ↦ found (.name ["Decorator"]) s (decoratorLength s) .anything,
    fun _ ↦ found .operator s (optional (· == '@') s) .anything,
    fun _ ↦ found (.name []) s (nameLength s) .anything]

/-- The rest of the line, if it starts with some characters and goes on after so many. -/
def lineAfter (start : String) (least : Nat) (s : List Char) : Nat :=
  let line := s.takeWhile (· != '\n')
  if start.toList.isPrefixOf line && least ≤ line.length then line.length else 0

/-- What comes next where anything may, after a character. -/
def statement? (before : Option Char) (s : List Char) : Option Found :=
  let lineStart := before == none || before == some '\n'
  firstOf [
    fun _ ↦ found .whitespace s (optional (· == '\n') s) .anything,
    fun _ ↦ if lineStart then docString? '"' s else none,
    fun _ ↦ if lineStart then docString? '\'' s else none,
    fun _ ↦
      if before == none then found (.comment "Hashbang") s (lineAfter "#!" 3 s) .anything
      else none,
    fun _ ↦ found (.comment "Single") s (lineAfter "#" 1 s) .anything,
    fun _ ↦ found .text s (if ['\\', '\n'].isPrefixOf s then 2 else optional (· == '\\') s) .anything,
    fun _ ↦ found .keyword s (wordLength keywords s) .anything,
    fun _ ↦ found .constant s (wordLength constantWords s) .anything,
    fun _ ↦ declaration? "def" .keyword .functionName s,
    fun _ ↦ declaration? "class" .keyword .className s,
    fun _ ↦ declaration? "from" .namespaceKeyword .moduleName s,
    fun _ ↦ declaration? "import" .namespaceKeyword .importNames s,
    fun _ ↦ expression? before s]

/-- What comes next, after a character. -/
def step (expected : Expected) (before : Option Char) (s : List Char) : Option Found :=
  match expected with
  | .anything => statement? before s
  | .functionName =>
    firstOf [
      fun _ ↦ magicFunction? s .functionName,
      fun _ ↦ found (.name ["Function"]) s (nameLength s) .anything,
      fun _ ↦ statement? before s]
  | .className => found (.name ["Class"]) s (nameLength s) .anything
  | .importNames => firstOf [fun _ ↦ inImport s, fun _ ↦ statement? before s]
  | .moduleName => firstOf [fun _ ↦ inModule s, fun _ ↦ statement? before s]
  | .stringRest o => inString o s

/-- What is expected after an error: the name of a class and the rest of a string still are. -/
def Expected.afterError : Expected → Expected
  | .className => .className
  | .stringRest o => .stringRest o
  | _ => .anything

def unknown (expected : Expected) (c : Char) : Found :=
  if c == '\n' then ([⟨.whitespace, [c]⟩], .anything)
  else ([⟨.error, [c]⟩], expected.afterError)

/-- The lexemes of a text in so many steps, after a character. -/
def lexemes : Nat → Expected → Option Char → List Char → List Lexeme
  | 0, _, _, _ => []
  | _, _, _, [] => []
  | fuel + 1, expected, before, c :: rest =>
    let (ls, next) := (step expected before (c :: rest)).getD (unknown expected c)
    let consumed := (ls.map Lexeme.text).flatten
    ls ++ lexemes fuel next (consumed.getLast?.or before) ((c :: rest).drop consumed.length)

def lex (s : List Char) : List Lexeme :=
  lexemes s.length .anything none s

end SafeMarkdown.Code.Script
