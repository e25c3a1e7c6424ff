import SafeMarkdown.Text.Bytes
import SafeMarkdown.Value
import SafeMarkdown.Yaml.Node

/-!
# Data

The value of a YAML document. Mappings have keys of any scalar kind; keys that are equal are one,
and a number is equal to a truth value when it is one or zero. Merging puts the entries of other
mappings before those of a mapping itself.
-/

namespace SafeMarkdown.Yaml

/-- The value of a node. -/
inductive Data where
  | null
  | bool (b : Bool)
  | int (n : Int)
  | float (x : Double)
  | str (s : String)
  | bytes (bs : List UInt8)
  | date (d : Date)
  | moment (m : Moment)
  | seq (items : List Data)
  | set (items : List Data)
  | map (entries : List (Data × Data))
  deriving Inhabited

namespace Data

def isKey : Data → Bool
  | seq _ | set _ | map _ => false
  | _ => true

/-- The number that a value equals, if it is an integer. -/
def integer? : Data → Option Int
  | bool b => some (if b then 1 else 0)
  | int n => some n
  | float x => x.toInt?
  | _ => none

/-- Whether two moments are the same instant, or show the same when no distance from universal time
is known of either. -/
def sameMoment (a b : Moment) : Bool :=
  a.offset.isSome == b.offset.isSome &&
    a.clock - (a.offset.elim 0 (·.micros)) == b.clock - (b.offset.elim 0 (·.micros))

/-- Whether two keys are equal. -/
def sameKey (a b : Data) : Bool :=
  match a, b with
  | null, null => true
  | str s, str t => s == t
  | bytes s, bytes t => s == t
  | date d, date e => d == e
  | moment m, moment n => sameMoment m n
  | float x, float y =>
    match x.toInt?, y.toInt? with
    | some m, some n => m == n
    | none, none => x == y && x != .nan
    | _, _ => false
  | _, _ =>
    match a.integer?, b.integer? with
    | some m, some n => m == n
    | _, _ => false

/-- Sets the value of a key, which keeps its place and its spelling when it is there already. -/
def put (k v : Data) : List (Data × Data) → List (Data × Data)
  | [] => [(k, v)]
  | (l, w) :: rest => if sameKey l k then (l, v) :: rest else (l, w) :: put k v rest

/-- Whether a value counts as something. -/
def isTruthy : Data → Bool
  | null => false
  | bool b => b
  | int n => n != 0
  | float x => !x.isZero
  | str s => !s.isEmpty
  | bytes bs => !bs.isEmpty
  | date _ | moment _ => true
  | seq items | set items => !items.isEmpty
  | map entries => !entries.isEmpty

def kindName : Data → String
  | null => "NoneType"
  | bool _ => "bool"
  | int _ => "int"
  | float _ => "float"
  | str _ => "str"
  | bytes _ => "bytes"
  | date _ => "date"
  | moment _ => "datetime"
  | seq _ => "list"
  | set _ => "set"
  | map _ => "dict"

def momentKey (m : Moment) : String :=
  String.ofList ((Iso.momentText m).toList.map fun c ↦ if c == 'T' then ' ' else c)

def keyText : Data → String
  | null => Value.display .null
  | bool b => Value.display (.bool b)
  | int n => Value.display (.int n)
  | float x => Value.display (.float x)
  | str s => s
  | bytes bs => Value.display (.bytes bs)
  | date d => Iso.dateText d
  | moment m => momentKey m
  | seq _ | set _ | map _ => ""

mutual

/-- A value with names for keys and texts for dates. -/
def toValue : Data → Value
  | null => .null
  | bool b => .bool b
  | int n => .int n
  | float x => .float x
  | str s => .str s
  | bytes bs => .bytes bs
  | date d => .str (Iso.dateText d)
  | moment m => .str (Iso.momentText m)
  | seq items => .arr (itemValues items)
  | set items => .arr (itemValues items)
  | map entries => .obj (Fields.ofList (entryValues entries))

def itemValues : List Data → List Value
  | [] => []
  | x :: rest => toValue x :: itemValues rest

def entryValues : List (Data × Data) → Fields
  | [] => []
  | (k, v) :: rest => (keyText k, toValue v) :: entryValues rest

end

mutual

def ofValue : Value → Data
  | .null => null
  | .bool b => bool b
  | .int n => int n
  | .float x => float x
  | .str s => str s
  | .bytes bs => bytes bs
  | .date d => date d
  | .moment m => moment m
  | .arr items => seq (ofItems items)
  | .obj fields => map (ofFields fields)

def ofItems : List Value → List Data
  | [] => []
  | v :: rest => ofValue v :: ofItems rest

def ofFields : List (String × Value) → List (Data × Data)
  | [] => []
  | (name, v) :: rest => (str name, ofValue v) :: ofFields rest

end

end Data

end SafeMarkdown.Yaml
