import SafeMarkdown.Failure
import SafeMarkdown.Text.LetterCase
import SafeMarkdown.Value

/-!
# Sanitization schemas

A schema lists the tags, the attributes of a tag or of every tag, and the URL schemes that survive
sanitizing. Names are kept without surrounding white space, in lower case and in order. A name that
ends in a star stands for all names that start with what precedes the star. Attributes that are not
listed among the protocols take any value; listed ones take relative references and the listed
schemes.
-/

namespace SafeMarkdown

/-- Tags that lose their whole content when they are not allowed. -/
def unsafeTags : List String := [
  "script", "style", "noscript", "template", "iframe", "frame", "frameset", "object", "embed",
  "applet", "base", "link", "meta", "title", "xmp", "noembed", "noframes", "plaintext", "svg",
  "math"]

/-- What survives sanitizing. -/
structure Schema where
  tags : List String
  attributes : List (String × List String)
  globals : List String
  protocols : List (String × List String)
  deriving DecidableEq

namespace Schema

/-- Puts a name into an ordered list that does not hold it yet. -/
def insertName (name : String) : List String → List String
  | [] => [name]
  | n :: rest =>
    if n < name then n :: insertName name rest
    else if n = name then n :: rest
    else name :: n :: rest

def nameSet (names : List String) : List String :=
  names.foldr insertName []

def normalName (name : String) : String :=
  String.ofList (Text.lower (Text.trim name.toList))

/-- The set of names that a list writes; blank ones do not count. -/
def normalNames (names : List String) : List String :=
  nameSet ((names.filter fun n ↦ !(Text.trim n.toList).isEmpty).map normalName)

/-- Sets the names listed under a key, in its old place when the key is there already. -/
def setKey (m : List (String × List String)) (key : String) (names : List String) :
    List (String × List String) :=
  match m with
  | [] => [(key, names)]
  | (k, ns) :: rest => if k == key then (k, names) :: rest else (k, ns) :: setKey rest key names

/-- A mapping with normal keys and names; of keys that become equal the last one counts. -/
def normalMapping (m : List (String × List String)) : List (String × List String) :=
  m.foldl (fun acc e ↦ setKey acc (normalName e.1) (normalNames e.2)) []

/-- The tags that are allowed unless other ones are given. -/
def defaultTags : List String := [
  "a", "abbr", "b", "strong", "i", "em", "cite", "code", "dfn", "kbd", "mark", "q", "s", "del",
  "ins", "samp", "small", "span", "sub", "sup", "u", "var", "br", "wbr", "time", "div", "p",
  "blockquote", "hr", "pre", "section", "article", "aside", "header", "footer", "nav", "main",
  "figure", "figcaption", "details", "summary", "h1", "h2", "h3", "h4", "h5", "h6", "ul", "ol",
  "li", "dl", "dt", "dd", "table", "caption", "thead", "tbody", "tfoot", "tr", "th", "td",
  "colgroup", "col", "img", "picture", "source", "audio", "video", "track", "input"]

/-- The attributes of single tags that are allowed unless other ones are given. -/
def defaultAttributes : List (String × List String) := [
  ("a", ["href", "title", "target", "rel"]),
  ("img", ["src", "alt", "title", "width", "height", "loading"]),
  ("input", ["type", "checked", "disabled"]),
  ("th", ["align", "colspan", "rowspan", "scope"]),
  ("td", ["align", "colspan", "rowspan"]),
  ("ol", ["start", "reversed", "type"]),
  ("li", ["value"]),
  ("time", ["datetime"]),
  ("blockquote", ["cite"]),
  ("q", ["cite"]),
  ("del", ["cite", "datetime"]),
  ("ins", ["cite", "datetime"]),
  ("details", ["open"]),
  ("col", ["span"]),
  ("colgroup", ["span"]),
  ("video", ["src", "width", "height", "controls", "poster", "preload", "loop", "muted"]),
  ("audio", ["src", "controls", "preload", "loop", "muted"]),
  ("source", ["src", "srcset", "type", "media"]),
  ("track", ["src", "kind", "srclang", "label", "default"])]

/-- The attributes of every tag that are allowed unless other ones are given. -/
def defaultGlobals : List String := ["class", "id", "title", "role", "lang", "aria-*", "data-*"]

/-- The URL schemes that are allowed unless other ones are given. -/
def defaultProtocols : List (String × List String) := [
  ("href", ["http", "https", "mailto", "tel"]),
  ("src", ["http", "https"]),
  ("srcset", ["http", "https"]),
  ("cite", ["http", "https"]),
  ("poster", ["http", "https"])]

/-- The schema of given lists; one that is not given has its default. -/
def build (tags : Option (List String)) (attributes : Option (List (String × List String)))
    (globals : Option (List String)) (protocols : Option (List (String × List String))) : Schema where
  tags := normalNames (tags.getD defaultTags)
  attributes := normalMapping (attributes.getD defaultAttributes)
  globals := normalNames (globals.getD defaultGlobals)
  protocols := normalMapping (protocols.getD defaultProtocols)

def standard : Schema :=
  build none none none none

def allowedUnsafeTags (s : Schema) : List String :=
  s.tags.filter unsafeTags.contains

/-- The warning about a schema that allows unsafe tags. -/
def warning? (s : Schema) : Option String :=
  if s.allowedUnsafeTags.isEmpty then none
  else some ("Sanitization schema explicitly allows unsafe tags: " ++
    ", ".intercalate s.allowedUnsafeTags)

/-- Whether a character may be part of a URL scheme after its first letter. -/
def isSchemeChar (c : Char) : Bool :=
  ('a' ≤ c && c ≤ 'z') || ('0' ≤ c && c ≤ '9') || c == '+' || c == '.' || c == '-'

/-- The scheme at the start of a lowercase text. -/
def schemeOf : List Char → Option (List Char)
  | [] => none
  | c :: rest =>
    if 'a' ≤ c && c ≤ 'z' then
      match rest.dropWhile isSchemeChar with
      | ':' :: _ => some (c :: rest.takeWhile isSchemeChar)
      | _ => none
    else none

/-- The scheme of a URL in lower case; control characters and spaces, which browsers pass over, do
not hide it. A relative reference has none. -/
def urlScheme (url : String) : Option String :=
  (schemeOf (Text.lower (url.toList.filter fun c ↦ 0x20 < c.toNat))).map String.ofList

def isEventHandler (name : String) : Bool :=
  "on".toList.isPrefixOf (Text.lower name.toList)

def allowsTag (s : Schema) (tag : String) : Bool :=
  s.tags.contains (Text.lowercase tag)

/-- Whether a listed name, which may end in a star, stands for a name. -/
def covers (listed name : String) : Bool :=
  if listed.toList.getLast? == some '*' then listed.toList.dropLast.isPrefixOf name.toList
  else name == listed

def allowsAttribute (s : Schema) (tag name : String) : Bool :=
  let name := Text.lowercase name
  let listed := (s.attributes.lookup (Text.lowercase tag)).getD [] ++ s.globals
  !isEventHandler name && listed.any fun p ↦ covers p name

/-- Whether an attribute may have a value. -/
def allowsUrl (s : Schema) (name : String) (value : Value) : Bool :=
  match s.protocols.lookup (Text.lowercase name), value with
  | some schemes, .str url =>
    match urlScheme url with
    | none => true
    | some scheme => schemes.contains scheme
  | _, _ => true

def insertEntry (e : String × List String) : List (String × List String) → List (String × List String)
  | [] => [e]
  | f :: rest => if f.1 < e.1 then f :: insertEntry e rest else e :: f :: rest

/-- The lists of a schema as a value, everything in order. -/
def toValue (s : Schema) : Value :=
  let names (ns : List String) : Value := .arr (ns.map .str)
  let mapping (m : List (String × List String)) : Value :=
    .obj ((m.foldr insertEntry []).map fun e ↦ (e.1, names e.2))
  .obj [("allowed_tags", names s.tags), ("allowed_attributes", mapping s.attributes),
    ("global_attributes", names s.globals), ("protocols", mapping s.protocols)]

end Schema

/-- The lists that a schema is to be built of. -/
structure SchemaArguments where
  tags : Option (List String) := none
  attributes : Option (List (String × List String)) := none
  globals : Option (List String) := none
  protocols : Option (List (String × List String)) := none

namespace SchemaArguments

/-- The items that a value runs through: those of a list, the characters of a text, the names of an
object. -/
def itemsOf : Value → Except Failure (List Value)
  | .arr items => .ok items
  | .str s => .ok (s.toList.map fun c ↦ .str (String.ofList [c]))
  | .obj fields => .ok (fields.map fun f ↦ .str f.1)
  | _ => .error (.wrongShape "the value has no items")

/-- The names in a list of items; null, false, zero and empty ones do not count. -/
def namesIn : List Value → Except Failure (List String)
  | [] => .ok []
  | v :: rest =>
    if v.isTruthy then
      match v with
      | .str s => (namesIn rest).map (s :: ·)
      | _ => .error .unsupported
    else namesIn rest

def readNames (v : Value) : Except Failure (List String) := do
  namesIn (← itemsOf v)

/-- Why items are no mapping: an item is no pair, or it is nothing that could be one. -/
inductive PairFault where
  | length
  | failure (e : Failure)

def readPair (v : Value) : Except PairFault (Value × Value) :=
  match itemsOf v with
  | .error e => .error (.failure e)
  | .ok [key, value] =>
    match key with
    | .arr _ => .error (.failure (.wrongShape "a list is no key"))
    | .obj _ => .error (.failure (.wrongShape "an object is no key"))
    | _ => .ok (key, value)
  | .ok _ => .error .length

def readPairs : List Value → Except PairFault (List (Value × Value))
  | [] => .ok []
  | v :: rest =>
    match readPair v with
    | .error fault => .error fault
    | .ok p => (readPairs rest).map (p :: ·)

/-- The entries of a mapping with text keys and collections of names. -/
def readEntries : List (Value × Value) → Except Failure (List (String × List String))
  | [] => .ok []
  | (.str key, v) :: rest => do
    let names ← readNames v
    return (key, names) :: (← readEntries rest)
  | _ :: _ => .error .unsupported

/-- The entries of an object, or of a list of pairs. Items of the wrong length are a fault of the
field `name`, other wrong items are a failure of their own. -/
def readMapping (name : String) : Value → Except Failure (List (String × String) × List (String × List String))
  | .obj fields => do
    return ([], ← readEntries (fields.map fun f ↦ (.str f.1, f.2)))
  | v => do
    match readPairs (← itemsOf v) with
    | .error .length => return ([(name, "value_error")], [])
    | .error (.failure e) => throw e
    | .ok pairs => return ([], ← readEntries pairs)

def readOption {α : Type} (fields : Fields) (name : String) (read : Value → Except Failure α) :
    Except Failure (Option α) :=
  match fields.get? name with
  | none => .ok none
  | some .null => .ok none
  | some v => (read v).map some

def names : List String :=
  ["allowed_tags", "allowed_attributes", "global_attributes", "protocols"]

/-- The lists that an object describes; it may have no other fields. -/
def ofValue (v : Value) : Except Failure SchemaArguments :=
  match v with
  | .null => .ok {}
  | .obj fields => do
    if fields.any fun f ↦ !names.contains f.1 then
      throw (.wrongShape "an unknown list of a schema")
    let tags ← readOption fields "allowed_tags" readNames
    let attributes ← readOption fields "allowed_attributes" (readMapping "allowed_attributes")
    let globals ← readOption fields "global_attributes" readNames
    let protocols ← readOption fields "protocols" (readMapping "protocols")
    let faults := (attributes.map Prod.fst).getD [] ++ (protocols.map Prod.fst).getD []
    if !faults.isEmpty then throw (.invalid faults)
    return ⟨tags, attributes.map Prod.snd, globals, protocols.map Prod.snd⟩
  | _ => .error (.wrongShape "the lists of a schema are no object")

def schema (a : SchemaArguments) : Schema :=
  Schema.build a.tags a.attributes a.globals a.protocols

end SchemaArguments

end SafeMarkdown
