import SafeMarkdown.Tree.Codec

/-!
# Front matter

The declared metadata of a document, title, description, date and tags, and whatever further fields
it has. Validation brings declared fields into one form: numbers become titles, dates become ISO
texts, and tags become a list of texts. A date is checked by reading it, so a date that leaves the
calendar when it is moved to universal time fails as such and not as a faulty field.
-/

namespace SafeMarkdown

/-- The metadata of a document. -/
structure FrontMatter where
  title : Option String := none
  description : Option String := none
  date : Option String := none
  tags : Option (List String) := none
  extra : Fields := []
  deriving Inhabited

namespace FrontMatter

def declared : List String := ["title", "description", "date", "tags"]

/-- A title or a description: a text, or the text of a number. -/
def readTitle (place : String) : Value → Checked (Option String)
  | .null => .ok none
  | .int n => .ok (some (Value.intText n))
  | .float x => .ok (some (String.ofList (DoubleFormat.plain.text x)))
  | v => (Checked.string place v).map some

/-- A date as an ISO text. -/
def readDate : Value → Except Failure (Checked (Option String))
  | .null => .ok (.ok none)
  | .date d => .ok (.ok (some (Iso.dateText d)))
  | .moment m => .ok (.ok (some (Iso.momentText m)))
  | .str s =>
    match Iso.readInstant s with
    | .ok _ => .ok (.ok (some s))
    | .error .beyondCalendar => .error (.calendar .beyondCalendar)
    | .error _ => .ok (.error [("date", "value_error")])
  | _ => .ok (.error [("date", "value_error")])

/-- Tags: the parts of a text between commas, or the texts of list items. -/
def readTags : Value → Checked (Option (List String))
  | .null => .ok none
  | .str s => .ok (some (Text.commaList s))
  | .arr items => .ok (some (items.map Value.display))
  | _ => .error [("tags", "list_type")]

def ofFields (fields : Fields) : Except Failure FrontMatter := do
  let title := Checked.field fields "title" (.ok none) (readTitle "title")
  let description := Checked.field fields "description" (.ok none) (readTitle "description")
  let date ← Checked.field fields "date" (.ok (.ok none)) readDate
  let tags := Checked.field fields "tags" (.ok none) readTags
  match title, description, date, tags with
  | .ok title, .ok description, .ok date, .ok tags =>
    .ok ⟨title, description, date, tags, fields.filter fun f ↦ !declared.contains f.1⟩
  | _, _, _, _ =>
    .error (.invalid (title.faults ++ description.faults ++ date.faults ++ tags.faults))

def fieldOfOption (name : String) : Option Value → Fields
  | none => []
  | some v => [(name, v)]

def tagsValue (tags : List String) : Value :=
  .arr (tags.map .str)

/-- The declared fields that are set, in their order, and then the further ones. -/
def toFields (fm : FrontMatter) : Fields :=
  fieldOfOption "title" (fm.title.map .str) ++
  fieldOfOption "description" (fm.description.map .str) ++
  fieldOfOption "date" (fm.date.map .str) ++
  fieldOfOption "tags" (fm.tags.map tagsValue) ++ fm.extra

/-- All declared fields, null when they are not set, and then the further ones, as stored. -/
def stored (fm : FrontMatter) : Value :=
  .obj ([
    ("title", (fm.title.map Value.str).getD .null),
    ("description", (fm.description.map Value.str).getD .null),
    ("date", (fm.date.map Value.str).getD .null),
    ("tags", (fm.tags.map tagsValue).getD .null)] ++ fm.extra)

def isDated (fm : FrontMatter) : Bool :=
  fm.date.any fun d ↦ !d.isEmpty

/-- The instant by which documents are ordered. -/
def sortKey (fm : FrontMatter) : Except Failure (Option Moment) :=
  match fm.date with
  | none => .ok none
  | some d =>
    if d.isEmpty then .ok none
    else match Iso.readInstant d with
      | .ok m => .ok (some m)
      | .error fault => .error (.calendar fault)

end FrontMatter

end SafeMarkdown
