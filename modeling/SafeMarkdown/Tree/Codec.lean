import SafeMarkdown.Checked
import SafeMarkdown.Json.Parser
import SafeMarkdown.Json.Printer
import SafeMarkdown.Tree.Node

/-!
# Trees as values

A node is stored as an object that leaves out every part equal to its default: no tag, no
attributes, no children, no text, no data. Doubles that are not finite are stored as null. Reading
an object checks every part and reports all faults, in the order of the parts.
-/

namespace SafeMarkdown

namespace Node

mutual

/-- A value as it is stored: a double that is not finite becomes null. -/
def storable : Value → Value
  | .float (.finite negative rank) => .float (.finite negative rank)
  | .float _ => .null
  | .arr items => .arr (storableItems items)
  | .obj fields => .obj (storableFields fields)
  | v => v

def storableItems : List Value → List Value
  | [] => []
  | v :: rest => storable v :: storableItems rest

def storableFields : List (String × Value) → List (String × Value)
  | [] => []
  | (name, v) :: rest => (name, storable v) :: storableFields rest

end

/-- A field that is left out when a test says that its part has the default. -/
def fieldUnless (isDefault : Bool) (name : String) (v : Value) : List (String × Value) :=
  if isDefault then [] else [(name, v)]

def toValue : Node → Value
  | ⟨kind, tag, attrs, children, value, data⟩ =>
    .obj ([("type", .str kind.name)] ++
      fieldUnless tag.isNone "tag" (.str (tag.getD "")) ++
      fieldUnless attrs.isEmpty "attrs" (.obj (storableFields attrs)) ++
      fieldUnless children.isEmpty "children" (.arr (toValues children)) ++
      fieldUnless value.isNone "value" (.str (value.getD "")) ++
      fieldUnless data.isEmpty "data" (.obj (storableFields data)))
where
  /-- Several nodes as objects. -/
  toValues : List Node → List Value
    | [] => []
    | n :: rest => toValue n :: toValues rest

/-- The parts of a node as they were found in an object. -/
structure Draft where
  kind : Checked NodeKind := .error [("type", "missing")]
  tag : Checked (Option String) := .ok none
  attrs : Checked Fields := .ok []
  children : Checked (List Node) := .ok []
  value : Checked (Option String) := .ok none
  data : Checked Fields := .ok []

def Draft.finish (d : Draft) : Checked Node :=
  match d.kind, d.tag, d.attrs, d.children, d.value, d.data with
  | .ok kind, .ok tag, .ok attrs, .ok children, .ok value, .ok data =>
    .ok ⟨kind, tag, attrs, children, value, data⟩
  | _, _, _, _, _, _ =>
    .error (d.kind.faults ++ d.tag.faults ++ d.attrs.faults ++ d.children.faults ++
      d.value.faults ++ d.data.faults)

def readKind (v : Value) : Checked NodeKind :=
  match v.str?.bind NodeKind.ofName? with
  | some k => .ok k
  | none => .error [("type", "enum")]

def readText (place : String) : Value → Checked (Option String)
  | .null => .ok none
  | .str s => .ok (some s)
  | _ => .error [(place, "string_type")]

def readFields (place : String) : Value → Checked Fields
  | .obj fields => .ok fields
  | _ => .error [(place, "dict_type")]

mutual

def ofValue : Value → Checked Node
  | .obj fields => (draft fields).finish
  | _ => .error [("", "model_type")]

/-- The parts of a node in the fields of an object; other fields are passed over. -/
def draft : List (String × Value) → Draft
  | [] => {}
  | (name, v) :: rest =>
    let d := draft rest
    if name == "type" then { d with kind := readKind v }
    else if name == "tag" then { d with tag := readText "tag" v }
    else if name == "attrs" then { d with attrs := readFields "attrs" v }
    else if name == "children" then { d with children := ofChildren v }
    else if name == "value" then { d with value := readText "value" v }
    else if name == "data" then { d with data := readFields "data" v }
    else d

def ofChildren : Value → Checked (List Node)
  | .arr items => ofItems 0 items
  | _ => .error [("children", "list_type")]

def ofItems (index : Nat) : List Value → Checked (List Node)
  | [] => .ok []
  | v :: rest => ((ofValue v).within ("children." ++ toString index)).cons (ofItems (index + 1) rest)

end

def canonicalText (n : Node) : String :=
  Json.canonicalText n.toValue

end Node

end SafeMarkdown
