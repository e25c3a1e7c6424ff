import SafeMarkdown.Number.Decimal
import SafeMarkdown.Text.Blank
import SafeMarkdown.Text.Quoted
import SafeMarkdown.Time.Iso

/-!
# Values

What an attribute, a data entry or a metadata field may hold: the values of JSON, where integers
are unbounded and kept apart from doubles, and the byte strings, dates and moments that metadata
brings along. The fields of an object keep the order in which they were first set.
-/

namespace SafeMarkdown

/-- A value of an attribute or a metadata field. -/
inductive Value where
  | null
  | bool (b : Bool)
  | int (n : Int)
  | float (x : Double)
  | str (s : String)
  | bytes (bs : List UInt8)
  | date (d : Date)
  | moment (m : Moment)
  | arr (items : List Value)
  | obj (fields : List (String × Value))
  deriving Inhabited

abbrev Fields := List (String × Value)

namespace Fields

def get? (fs : Fields) (name : String) : Option Value :=
  fs.lookup name

def has (fs : Fields) (name : String) : Bool :=
  fs.any fun f ↦ f.1 == name

/-- Sets a field: in its old place when the name is there already, else at the end. -/
def set (fs : Fields) (name : String) (v : Value) : Fields :=
  match fs with
  | [] => [(name, v)]
  | (n, w) :: rest => if n == name then (n, v) :: rest else (n, w) :: set rest name v

def erase (fs : Fields) (name : String) : Fields :=
  fs.filter fun f ↦ f.1 != name

/-- Sets fields one after the other, so that a repeated name keeps its first place and its last
value. -/
def ofList (fs : List (String × Value)) : Fields :=
  fs.foldl (fun acc f ↦ acc.set f.1 f.2) []

end Fields

namespace Value

/-- Whether a value counts as something: null, false, zeros and empty texts and collections do
not. -/
def isTruthy : Value → Bool
  | null => false
  | bool b => b
  | int n => n != 0
  | float x => !x.isZero
  | str s => !s.isEmpty
  | bytes bs => !bs.isEmpty
  | date _ => true
  | moment _ => true
  | arr xs => !xs.isEmpty
  | obj fs => !fs.isEmpty

def str? : Value → Option String
  | str s => some s
  | _ => none

def intText (n : Int) : String :=
  if n < 0 then "-" ++ String.ofList (Nat.toDigits 10 n.natAbs)
  else String.ofList (Nat.toDigits 10 n.natAbs)

mutual

/-- A value as it is spelled inside a list or an object: strings are quoted. -/
def literal : Value → String
  | null => "None"
  | bool b => if b then "True" else "False"
  | int n => intText n
  | float x => String.ofList (DoubleFormat.plain.text x)
  | str s => Text.quoted s
  | bytes bs => Text.quotedBytes bs
  | date d => Iso.dateText d
  | moment m => Iso.momentText m
  | arr xs => "[" ++ ", ".intercalate (literals xs) ++ "]"
  | obj fs => "\x7b" ++ ", ".intercalate (fieldLiterals fs) ++ "\x7d"

def literals : List Value → List String
  | [] => []
  | v :: rest => literal v :: literals rest

def fieldLiterals : List (String × Value) → List String
  | [] => []
  | (name, v) :: rest => (Text.quoted name ++ ": " ++ literal v) :: fieldLiterals rest

end

/-- A value as it is spelled on its own: a string is its text. -/
def display : Value → String
  | str s => s
  | v => literal v

end Value

end SafeMarkdown
