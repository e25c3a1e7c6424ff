import SafeMarkdown.Text.Blank

/-!
# Requests

The words of a command line ask for a command, for help, or for nothing that there is. Options
start with a hyphen and may stand before and behind other words, up to a double hyphen; the last
value of an option counts. In front of the command only general options stand.
-/

namespace SafeMarkdown.Command

/-- The options that a command takes: those that stand alone and those with a value. -/
structure Options where
  switches : List String
  valued : List String

/-- What the words after a command say. -/
structure Words where
  switches : List String := []
  values : List (String × String) := []
  plain : List String := []

/-- An option and the value that is attached to it by an equals sign. -/
def splitOption (word : String) : String × Option String :=
  let name := word.toList.takeWhile (· != '=')
  match word.toList.drop name.length with
  | [] => (word, none)
  | _ :: value => (String.ofList name, some (String.ofList value))

def isOption (word : String) : Bool :=
  Text.startsWith word "-" && word != "-"

def Words.withValue (w : Words) (name value : String) : Words :=
  if (w.values.lookup name).isSome then w else { w with values := (name, value) :: w.values }

/-- Sorts words, if all options are known and have values where they need them. -/
def sortWords (o : Options) : List String → Option Words
  | [] => some {}
  | word :: rest =>
    if word == "--" then some { plain := rest }
    else if !isOption word then
      (sortWords o rest).map fun w ↦ { w with plain := word :: w.plain }
    else
      let (name, attached) := splitOption word
      if o.valued.contains name then
        match attached with
        | some value => (sortWords o rest).map fun w ↦ w.withValue name value
        | none =>
          match rest with
          | value :: more => (sortWords o more).map fun w ↦ w.withValue name value
          | [] => none
      else if o.switches.contains name && attached.isNone then
        (sortWords o rest).map fun w ↦ { w with switches := name :: w.switches }
      else none

def Words.has (w : Words) (name : String) : Bool :=
  w.switches.contains name

def Words.value? (w : Words) (name : String) : Option String :=
  w.values.lookup name

/-- What a command is to do. -/
inductive Task where
  /-- Renders one file, to a file if one is named. -/
  | render (path : String) (html : Bool) (out : Option String) (strict : Bool)
  | list (root : Option String) (recursive : Bool)
  /-- Writes all documents under a root into a folder. -/
  | build (root out : Option String) (recursive : Bool)
  /-- Shows the sanitization schema in force. -/
  | schema
  deriving DecidableEq, Repr

/-- What the words of a command line ask for. -/
inductive Request where
  | usage
  | help
  | perform (verbose : Bool) (task : Task)
  deriving DecidableEq, Repr

def optionsOf : String → Option Options
  | "render" => some ⟨["--html", "--strict", "--help"], ["--out"]⟩
  | "list" => some ⟨["--recursive", "--help"], []⟩
  | "build" => some ⟨["--recursive", "--help"], ["--out-dir"]⟩
  | "schema" => some ⟨["--help"], []⟩
  | _ => none

def taskOf (command : String) (w : Words) : Option Task :=
  match command, w.plain with
  | "render", [path] => some (.render path (w.has "--html") (w.value? "--out") (w.has "--strict"))
  | "list", [] => some (.list none (w.has "--recursive"))
  | "list", [root] => some (.list (some root) (w.has "--recursive"))
  | "build", [] => some (.build none (w.value? "--out-dir") (w.has "--recursive"))
  | "build", [root] => some (.build (some root) (w.value? "--out-dir") (w.has "--recursive"))
  | "schema", [] => some .schema
  | _, _ => none

def requestOf (verbose : Bool) (command : String) (words : List String) : Request :=
  match optionsOf command with
  | none => .usage
  | some o =>
    match sortWords o words with
    | none => .usage
    | some w =>
      if w.has "--help" then .help
      else match taskOf command w with
        | some task => .perform verbose task
        | none => .usage

/-- Whether a word is a general option for more of the log, written short or in full. -/
def isVerbose (word : String) : Bool :=
  word == "--verbose" || (isOption word && (word.toList.drop 1).all (· == 'v'))

/-- What words ask for, given what general options stood before them. -/
def requestAfter (verbose help : Bool) : List String → Request
  | [] => if help then .help else .usage
  | word :: rest =>
    if word == "--help" then requestAfter verbose true rest
    else if isVerbose word then requestAfter true help rest
    else if word == "--" then
      match rest with
      | [] => if help then .help else .usage
      | command :: words => if help then .help else requestOf verbose command words
    else if isOption word then .usage
    else if help then .help
    else requestOf verbose word rest

def Request.ofWords (words : List String) : Request :=
  requestAfter false false words

end SafeMarkdown.Command
