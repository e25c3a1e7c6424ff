import SafeMarkdown.Text.Blank
import SafeMarkdown.Text.LetterCase
import SafeMarkdown.Yaml.Data

/-!
# From nodes to data

A tag says how a node becomes a value. A scalar whose tag was given may fail to have such a value;
that is another fault than one of the document.
-/

namespace SafeMarkdown.Yaml

/-- A scalar that lacks the value its tag promises, told in words. -/
def unusable {α : Type} (message : String) : Except Fault α :=
  .error (.scalar (.unusable message))

def dropLines (s : List Char) : List Char :=
  s.filter (· != '_')

/-- The value of a digit in any base up to 36. -/
def digitIn? (base : Nat) (c : Char) : Option Nat :=
  let n := if isDigit c then c.toNat - 48
    else if 'a' ≤ c && c ≤ 'z' then c.toNat - 87
    else if 'A' ≤ c && c ≤ 'Z' then c.toNat - 55
    else base
  if n < base then some n else none

def mostDigits : Nat := 4300

/-- Digits without the mark of their base before them. -/
def dropBaseMark (base : Nat) (ds : List Char) : List Char :=
  match ds with
  | '0' :: mark :: rest =>
    let mark := mark.toLower
    if (base == 2 && mark == 'b') || (base == 8 && mark == 'o') || (base == 16 && mark == 'x') then
      rest
    else ds
  | _ => ds

/-- The integer that digits of a base write, with a sign before them and blanks around them. The
base may be marked again, and the digits may be those of any script. -/
def readDigits (base : Nat) (s : List Char) : Except Fault Int :=
  let body := (Text.trim s).map Text.toAsciiDigit
  let negative := body.head? == some '-'
  let ds := dropBaseMark base (dropSign body)
  let refused : Except Fault Int := unusable
    ("invalid literal for int() with base " ++ toString base ++ ": " ++
      Text.quoted (String.ofList s))
  if ds.isEmpty then refused
  else if base == 10 && mostDigits < ds.length && ds.all isDigit then
    unusable ("Exceeds the limit (4300 digits) for integer string conversion: value has " ++
      toString ds.length ++ " digits; use sys.set_int_max_str_digits() to increase the limit")
  else
    match ds.foldl (fun n d ↦ do return (← n) * base + (← digitIn? base d)) (some 0) with
    | some n => .ok (if negative then -(n : Int) else n)
    | none => refused

def sumSixties : List Int → Int
  | [] => 0
  | n :: rest => n + 60 * sumSixties rest

/-- An integer. -/
def readInt (text : List Char) : Except Fault Int := do
  let s := dropLines text
  let negative := s.head? == some '-'
  let body := dropSign s
  let n ← match body with
    | [] => throw (.scalar .missingItem)
    | ['0'] => pure 0
    | '0' :: 'b' :: rest => readDigits 2 rest
    | '0' :: 'x' :: rest => readDigits 16 rest
    | '0' :: _ => readDigits 8 body
    | _ =>
      if body.contains ':' then
        let parts ← (Text.splitAtEach (· == ':') body).mapM (readDigits 10)
        pure (sumSixties parts.reverse)
      else readDigits 10 body
  return if negative then -n else n

/-- The number that a decimal text writes, with an exponent or without. -/
def decimal? (s : List Char) : Option Double :=
  let negative := s.head? == some '-'
  let body := dropSign s
  let whole := body.takeWhile isDigit
  let rest := body.drop whole.length
  let fraction := match rest with
    | '.' :: more => more.takeWhile isDigit
    | _ => []
  let rest := match rest with
    | '.' :: more => more.drop fraction.length
    | _ => rest
  let natOf (ds : List Char) : Nat := ds.foldl (fun n d ↦ n * 10 + (d.toNat - 48)) 0
  let digits := natOf (whole ++ fraction)
  let make (e : Int) : Option Double :=
    if whole.isEmpty && fraction.isEmpty then none
    else some (.ofDecimal negative digits (e - fraction.length))
  match rest with
  | [] => make 0
  | e :: more =>
    let ds := dropSign more
    if (e == 'e' || e == 'E') && allOf isDigit ds then
      make (if more.head? == some '-' then -(natOf ds : Int) else natOf ds)
    else none

/-- The number that a text writes, blanks around it apart, also by the name of one that is not
finite. -/
def readNumber (s : List Char) : Except Fault Double :=
  let body := (Text.trim s).map Text.toAsciiDigit
  let word := String.ofList ((dropSign body).map Char.toLower)
  let negative := body.head? == some '-'
  if word == "inf" || word == "infinity" then .ok (.infinite negative)
  else if word == "nan" then .ok .nan
  else match decimal? body with
    | some x => .ok x
    | none => unusable ("could not convert string to float: " ++ Text.quoted (String.ofList s))

def addSixties (base sum : Double) : List Double → Double
  | [] => sum
  | x :: rest => addSixties (base.mul (.ofInt 60)) (sum.add (x.mul base)) rest

/-- A number with a point. -/
def readFloat (text : List Char) : Except Fault Double := do
  let s := Text.lower (dropLines text)
  let negative := s.head? == some '-'
  let body := dropSign s
  if body.isEmpty then throw (.scalar .missingItem)
  let word := String.ofList body
  let x ←
    if word == ".inf" then pure (Double.infinite false)
    else if word == ".nan" then pure Double.nan
    else if body.contains ':' then
      let parts ← (Text.splitAtEach (· == ':') body).mapM readNumber
      pure (addSixties (.ofInt 1) (.zero false) parts.reverse)
    else readNumber body
  return if negative then x.neg else x

/-- A truth value. -/
def readBool (text : List Char) : Except Fault Bool :=
  let word := String.ofList (Text.lower text)
  if ["yes", "true", "on"].contains word then .ok true
  else if ["no", "false", "off"].contains word then .ok false
  else .error (.scalar .missingKey)

def ofCalendar {α : Type} (r : Except CalendarFault α) : Except Fault α :=
  r.mapError fun f ↦ .scalar (.calendar f)

def numberOf (ds : List Char) : Nat :=
  ds.foldl (fun n d ↦ n * 10 + (d.toNat - 48)) 0

/-- The microseconds that the digits of a fraction write; later digits than the sixth are cut. -/
def microsOf (ds : List Char) : Nat :=
  numberOf ((ds ++ List.replicate 6 '0').take 6)

/-- The distance from universal time that a zone gives. -/
def offsetOf (zone : Option (Bool × List Char × List Char)) : Except Fault Offset :=
  match zone with
  | none => .ok .utc
  | some (negative, hour, minute) =>
    let seconds : Int := (numberOf hour * 3600 + numberOf minute * 60 : Nat)
    ofCalendar (Offset.make ((if negative then -seconds else seconds) * 1000000))

def readTime (text : List Char) : Except Fault Data := do
  match timeParts? text with
  | none => throw (.scalar .unsupported)
  | some p =>
    let date := Date.make (numberOf p.year) (numberOf p.month) (numberOf p.day)
    match p.clock with
    | none => return .date (← ofCalendar date)
    | some (hour, minute, second, fraction) =>
      let offset ← p.zone.mapM offsetOf
      return .moment (← ofCalendar (Moment.make (← ofCalendar date) (numberOf hour)
        (numberOf minute) (numberOf second) (microsOf fraction) offset))

def readBytes (text : List Char) : Except Fault (List UInt8) :=
  if text.any (127 < ·.toNat) then .error .malformed
  else match Text.decodeBase64? text with
    | some bs => .ok bs
    | none => .error .malformed

def readScalar (tag : Tag) (text : List Char) : Except Fault Data :=
  match tag with
  | .null => .ok .null
  | .bool => (readBool text).map .bool
  | .int => (readInt text).map .int
  | .float => (readFloat text).map .float
  | .binary => (readBytes text).map .bytes
  | .timestamp => readTime text
  | .str => .ok (.str (String.ofList text))
  | _ => .error .malformed

def defaultText? : List (Node × Node) → Option (List Char)
  | [] => none
  | (.scalar .value _, .scalar _ text) :: _ => some text
  | _ :: rest => defaultText? rest

def Tag.isScalar : Tag → Bool
  | .null | .bool | .int | .float | .binary | .timestamp | .str => true
  | _ => false

/-- A key that is the sign of the default value as a key like others. -/
def plainKey : Node → Node
  | .scalar .value text => .scalar .str text
  | n => n

mutual

/-- The entries of mappings that are merged into one, those of the first mapping last. -/
def mergedEntries : Nat → Node → Except Fault (List (Node × Node))
  | 0, _ => .error .malformed
  | fuel + 1, n =>
    match n with
    | .mapping _ entries => flatten fuel entries
    | .sequence _ items => do
      let all ← items.mapM fun item ↦
        match item with
        | .mapping _ entries => flatten fuel entries
        | _ => .error .malformed
      return all.reverse.flatten
    | .scalar _ _ => .error .malformed
termination_by structural n => n

/-- The entries of a mapping, after those that it merges. -/
def flatten : Nat → List (Node × Node) → Except Fault (List (Node × Node))
  | 0, _ => .error .malformed
  | fuel + 1, entries => do
    let merged ← entries.mapM fun (k, v) ↦
      match k with
      | .scalar .merge _ => mergedEntries fuel v
      | _ => pure []
    let own := entries.filterMap fun (k, v) ↦
      match k with
      | .scalar .merge _ => none
      | _ => some (plainKey k, v)
    return merged.flatten ++ own
termination_by structural n => n

end

mutual

/-- How many nodes lie on the longest way through a node. -/
def Node.depth : Node → Nat
  | .scalar _ _ => 1
  | .sequence _ items => itemsDepth items + 1
  | .mapping _ entries => entriesDepth entries + 1

def itemsDepth : List Node → Nat
  | [] => 0
  | n :: rest => max n.depth (itemsDepth rest)

def entriesDepth : List (Node × Node) → Nat
  | [] => 0
  | (k, v) :: rest => max (max k.depth v.depth) (entriesDepth rest)

end

/-- The value of a node, of at most such a depth. -/
def construct : Nat → Node → Except Fault Data
  | 0, _ => .error .malformed
  | fuel + 1, n =>
    let entriesOf (entries : List (Node × Node)) : Except Fault (List (Data × Data)) := do
      let flat ← flatten (2 * fuel + 2) entries
      flat.foldlM
        (fun acc (k, v) ↦ do
          let key ← construct fuel k
          if !key.isKey then throw .malformed
          return Data.put key (← construct fuel v) acc)
        []
    match n with
    | .scalar tag text => readScalar tag text
    | .sequence tag items =>
      match tag with
      | .seq => return .seq (← items.mapM (construct fuel))
      | .omap | .pairs => do
        let pairs ← items.mapM fun item ↦
          match item with
          | .mapping _ [(k, v)] => do return Data.seq [← construct fuel k, ← construct fuel v]
          | _ => throw .malformed
        return .seq pairs
      | _ => .error .malformed
    | .mapping tag entries =>
      match tag with
      | .map => return .map (← entriesOf entries)
      | .set => return .set ((← entriesOf entries).map (·.1))
      | _ =>
        if tag.isScalar then
          match defaultText? entries with
          | some text => readScalar tag text
          | none => .error .malformed
        else .error .malformed

/-- The value of the document that a text is; a text without one has none. -/
def load (s : List Char) : Except Fault Data := do
  match ← nodeOf s with
  | none => return .null
  | some n => construct n.depth n

end SafeMarkdown.Yaml
