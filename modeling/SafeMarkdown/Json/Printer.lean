import SafeMarkdown.Failure
import SafeMarkdown.Value

/-!
# JSON texts

Values are written on one line without spaces, or indented by two spaces a level. The canonical
text of a value is the one-line text with the fields of every object in the order of their names,
so that values equal up to the order of fields have one text. Bytes, dates and moments have no JSON
text; `unwritable` finds them.
-/

namespace SafeMarkdown.Json

/-- One character inside a string. -/
def escapeChar (c : Char) : List Char :=
  if c == '"' then ['\\', '"']
  else if c == '\\' then ['\\', '\\']
  else if c == '\n' then ['\\', 'n']
  else if c == '\r' then ['\\', 'r']
  else if c == '\t' then ['\\', 't']
  else if c.toNat = 8 then ['\\', 'b']
  else if c.toNat = 12 then ['\\', 'f']
  else if c.toNat < 32 then '\\' :: 'u' :: Text.hexDigits 4 c.toNat
  else [c]

def stringText (s : String) : List Char :=
  '"' :: s.toList.flatMap escapeChar ++ ['"']

def intText (n : Int) : List Char :=
  if n < 0 then '-' :: Nat.toDigits 10 n.natAbs else Nat.toDigits 10 n.natAbs

/-- The class name of the first part of a value that has no JSON text. -/
def unwritable : Value → Option String
  | .bytes _ => some "bytes"
  | .date _ => some "date"
  | .moment _ => some "datetime"
  | .arr items => inItems items
  | .obj fields => inFields fields
  | _ => none
where
  /-- The first such part of a list. -/
  inItems : List Value → Option String
    | [] => none
    | v :: rest => (unwritable v).or (inItems rest)
  /-- The first such part of an object. -/
  inFields : List (String × Value) → Option String
    | [] => none
    | (_, v) :: rest => (unwritable v).or (inFields rest)

/-- A double; one that is not finite may be written as null. -/
def floatText (f : DoubleFormat) (onlyFinite : Bool) : Double → List Char
  | .finite negative rank => f.text (.finite negative rank)
  | x => if onlyFinite then "null".toList else f.text x

/-- A value that is neither list nor object. -/
def scalarText (f : DoubleFormat) (onlyFinite : Bool) : Value → List Char
  | .null => "null".toList
  | .bool b => if b then "true".toList else "false".toList
  | .int n => intText n
  | .float x => floatText f onlyFinite x
  | .str s => stringText s
  | _ => []

mutual

def compact : Value → List Char
  | .arr items => '[' :: compactItems items ++ [']']
  | .obj fields => '\x7b' :: compactFields fields ++ ['\x7d']
  | v => scalarText .json false v

def compactItems : List Value → List Char
  | [] => []
  | [v] => compact v
  | v :: rest => compact v ++ ',' :: compactItems rest

/-- Object fields parted by commas. -/
def compactFields : List (String × Value) → List Char
  | [] => []
  | [(name, v)] => stringText name ++ ':' :: compact v
  | (name, v) :: rest => stringText name ++ ':' :: compact v ++ ',' :: compactFields rest

end

def insertField (f : String × Value) : List (String × Value) → List (String × Value)
  | [] => [f]
  | g :: rest => if g.1 < f.1 then g :: insertField f rest else f :: g :: rest

mutual

/-- The value with the fields of every object ordered by name. -/
def sorted : Value → Value
  | .arr items => .arr (sortedItems items)
  | .obj fields => .obj (sortedFields fields)
  | v => v

def sortedItems : List Value → List Value
  | [] => []
  | v :: rest => sorted v :: sortedItems rest

/-- The fields of an object, each sorted, in the order of their names. -/
def sortedFields : List (String × Value) → List (String × Value)
  | [] => []
  | (name, v) :: rest => insertField (name, sorted v) (sortedFields rest)

end

def canonicalText (v : Value) : String :=
  String.ofList (compact (sorted v))

def canonical (v : Value) : Except Failure String :=
  match unwritable v with
  | some kind => .error (.wrongShape ("Object of type " ++ kind ++ " is not JSON serializable"))
  | none => .ok (canonicalText v)

def lineBreak (level : Nat) : List Char :=
  '\n' :: List.replicate (2 * level) ' '

mutual

def indented (f : DoubleFormat) (onlyFinite : Bool) (level : Nat) : Value → List Char
  | .arr [] => ['[', ']']
  | .arr items =>
    '[' :: lineBreak (level + 1) ++ indentedItems f onlyFinite (level + 1) items ++
      lineBreak level ++ [']']
  | .obj [] => ['\x7b', '\x7d']
  | .obj fields =>
    '\x7b' :: lineBreak (level + 1) ++ indentedFields f onlyFinite (level + 1) fields ++
      lineBreak level ++ ['\x7d']
  | v => scalarText f onlyFinite v

def indentedItems (f : DoubleFormat) (onlyFinite : Bool) (level : Nat) : List Value → List Char
  | [] => []
  | [v] => indented f onlyFinite level v
  | v :: rest =>
    indented f onlyFinite level v ++ ',' :: lineBreak level ++
      indentedItems f onlyFinite level rest

/-- Object fields, each on a line of its own. -/
def indentedFields (f : DoubleFormat) (onlyFinite : Bool) (level : Nat) :
    List (String × Value) → List Char
  | [] => []
  | [(name, v)] => stringText name ++ ':' :: ' ' :: indented f onlyFinite level v
  | (name, v) :: rest =>
    stringText name ++ ':' :: ' ' :: indented f onlyFinite level v ++ ',' :: lineBreak level ++
      indentedFields f onlyFinite level rest

end

/-- The spelling of doubles in stored documents: positional from `0.00001` up to sixteen digits
before the point, exponents without sign or padding. -/
def storedDoubles : DoubleFormat := ⟨-4, 16, 1, false, "null", "null"⟩

/-- The indented text of a value of a stored document, in which only finite doubles are written. -/
def storedText (v : Value) : String :=
  String.ofList (indented storedDoubles true 0 v)

/-- The indented text of a value, in which doubles that are not finite have names. -/
def readableText (v : Value) : String :=
  String.ofList (indented .json false 0 v)

end SafeMarkdown.Json
