import SafeMarkdown.Text.Bytes
import SafeMarkdown.Value

/-!
# Checked fields

A field of an object is read into the form that it must have. What does not have that form is a
fault, named by its place and its kind; the faults of several fields add up. Texts may come as bytes
that encode them, and a switch may come as a word or a number.
-/

namespace SafeMarkdown

/-- What was read, or the faults in it, each with its place and kind. -/
abbrev Checked (α : Type) := Except (List (String × String)) α

namespace Checked

def faults {α : Type} : Checked α → List (String × String)
  | .error fs => fs
  | .ok _ => []

def placeIn (outer inner : String) : String :=
  if inner.isEmpty then outer else outer ++ "." ++ inner

def within {α : Type} (outer : String) (r : Checked α) : Checked α :=
  r.mapError fun fs ↦ fs.map fun f ↦ (placeIn outer f.1, f.2)

/-- What was read in front of a list that was read. -/
def cons {α : Type} (first : Checked α) (rest : Checked (List α)) : Checked (List α) :=
  match first, rest with
  | .ok a, .ok as => .ok (a :: as)
  | _, _ => .error (first.faults ++ rest.faults)

/-- A text, or bytes that encode one. -/
def string (place : String) : Value → Checked String
  | .str s => .ok s
  | .bytes bs =>
    match Text.decodeUtf8 bs with
    | .ok cs => .ok (String.ofList cs)
    | .error _ => .error [(place, "string_unicode")]
  | _ => .error [(place, "string_type")]

def onWords : List String := ["1", "t", "y", "yes", "on", "true"]

def offWords : List String := ["0", "f", "n", "no", "off", "false"]

/-- A switch from a word in any case. -/
def booleanWord (place s : String) : Checked Bool :=
  let word := String.ofList (s.toList.map Char.toLower)
  if onWords.contains word then .ok true
  else if offWords.contains word then .ok false
  else .error [(place, "bool_parsing")]

def booleanNumber (place : String) (n : Int) : Checked Bool :=
  if n = 1 then .ok true
  else if n = 0 then .ok false
  else .error [(place, "bool_parsing")]

/-- A switch: a truth value, a word or a number that stands for one. -/
def boolean (place : String) : Value → Checked Bool
  | .bool b => .ok b
  | .str s => booleanWord place s
  | .bytes bs =>
    match Text.decodeUtf8 bs with
    | .ok cs => booleanWord place (String.ofList cs)
    | .error _ => .error [(place, "bool_parsing")]
  | .int n => booleanNumber place n
  | .float x =>
    match x.toInt? with
    | some n => booleanNumber place n
    | none => .error [(place, "bool_type")]
  | _ => .error [(place, "bool_type")]

def nullOr {α : Type} (read : Value → Checked α) : Value → Checked (Option α)
  | .null => .ok none
  | v => (read v).map some

def field {α : Type} (fields : Fields) (name : String) (absent : α) (read : Value → α) : α :=
  match fields.get? name with
  | none => absent
  | some v => read v

end Checked

end SafeMarkdown
