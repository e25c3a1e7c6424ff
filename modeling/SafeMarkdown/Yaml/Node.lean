import SafeMarkdown.Yaml.Tag
import SafeMarkdown.Yaml.Token

/-!
# Nodes of a YAML document

A document is one node: a scalar, a sequence or a mapping, each with a tag. A node may be named by
an anchor and then stands at every alias of that name. A text that is no document, or more than one,
has no node.
-/

namespace SafeMarkdown.Yaml

inductive Node where
  | scalar (tag : Tag) (text : List Char)
  | sequence (tag : Tag) (items : List Node)
  | mapping (tag : Tag) (entries : List (Node × Node))

def Node.empty : Node := .scalar .null []

/-- What is left to read of a document, and what its names stand for. -/
structure Input where
  tokens : List Token
  /-- The anchors so far; one whose node is still being read has none. -/
  anchors : List (String × Option Node) := []
  /-- What the handles of tags stand for. -/
  handles : List (String × String)

abbrev Reading := StateT Input (Except Fault)

namespace Reading

def fail {α : Type} : Reading α :=
  throw .malformed

def peek : Reading Token := do
  return (← get).tokens.head?.getD .streamEnd

def drop : Reading Unit :=
  modify fun s ↦ { s with tokens := s.tokens.drop 1 }

def referred (name : String) : Reading Node := do
  match (← get).anchors.lookup name with
  | some (some n) => return n
  | _ => fail

/-- Announces an anchor; a name stands for one node only. -/
def announce (name : Option String) : Reading Unit := do
  match name with
  | none => return
  | some name =>
    if ((← get).anchors.lookup name).isSome then fail
    modify fun s ↦ { s with anchors := (name, none) :: s.anchors }

/-- Sets the node of an anchor. -/
def define (name : Option String) (n : Node) : Reading Node := do
  if let some name := name then
    modify fun s ↦ { s with anchors := (name, some n) :: s.anchors }
  return n

def fullTag (handle : Option String) (suffix : String) : Reading String := do
  match handle with
  | none => return suffix
  | some h =>
    match (← get).handles.lookup h with
    | some start => return start ++ suffix
    | none => fail

/-- The anchor and the tag of a node, in either order. -/
def properties : Reading (Option String × Option String) := do
  match ← peek with
  | .anchor name =>
    drop
    match ← peek with
    | .tag h s =>
      drop
      return (some name, some (← fullTag h s))
    | _ => return (some name, none)
  | .tag h s =>
    drop
    match ← peek with
    | .anchor name =>
      drop
      return (some name, some (← fullTag h s))
    | _ => return (none, some (← fullTag h s))
  | _ => return (none, none)

end Reading

open Reading

def collectionTag (usual : Tag) (name : Option String) : Tag :=
  match name with
  | none => usual
  | some n => if n == "!" then usual else Tag.ofName n

def scalarTag (plain : Bool) (name : Option String) (text : List Char) : Tag :=
  match name with
  | none => if plain then Tag.ofPlain text else .str
  | some n => if n == "!" then Tag.ofPlain text else Tag.ofName n

/-- Where a node stands. -/
inductive Position where
  | flow
  | block
  /-- In a block mapping: items of a sequence need no indentation there. -/
  | inMapping
  deriving DecidableEq

def endsEntry : Token → Bool
  | .key | .value | .blockEnd => true
  | _ => false

def endsFlowEntry (inSequence : Bool) : Token → Bool
  | .flowEntry => true
  | .flowSequenceEnd => inSequence
  | .flowMappingEnd => !inSequence
  | _ => false

def isValue : Token → Bool
  | .value => true
  | _ => false

/-- Passes the comma before an entry that is not the first. -/
def passComma (first : Bool) : Reading Unit := do
  if first then return
  match ← peek with
  | .flowEntry => drop
  | _ => fail

mutual

def readNode : Nat → Position → Reading Node
  | 0, _ => fail
  | fuel + 1, position => do
    if let .reference name ← peek then
      drop
      return ← referred name
    let (anchor, tag) ← properties
    announce anchor
    match ← peek, position with
    | .scalar text plain, _ =>
      drop
      define anchor (.scalar (scalarTag plain tag text) text)
    | .flowSequence, _ =>
      drop
      define anchor (.sequence (collectionTag .seq tag) (← readFlowItems fuel true))
    | .flowMapping, _ =>
      drop
      define anchor (.mapping (collectionTag .map tag) (← readFlowEntries fuel true))
    | .blockEntry, .inMapping =>
      define anchor (.sequence (collectionTag .seq tag) (← readItems fuel false))
    | token, _ =>
      match token, position with
      | .blockSequence, .block | .blockSequence, .inMapping =>
        drop
        define anchor (.sequence (collectionTag .seq tag) (← readItems fuel true))
      | .blockMapping, .block | .blockMapping, .inMapping =>
        drop
        define anchor (.mapping (collectionTag .map tag) (← readEntries fuel))
      | _, _ =>
        if anchor.isNone && tag.isNone then fail
        define anchor (.scalar (scalarTag (tag.isNone || tag == some "!") tag []) [])
termination_by structural n => n

/-- Reads the items of a block sequence, which an end closes if it is indented. -/
def readItems : Nat → Bool → Reading (List Node)
  | 0, _ => fail
  | fuel + 1, indented => do
    match ← peek with
    | .blockEntry =>
      drop
      let ended := match ← peek with
        | .blockEntry | .blockEnd => true
        | .key | .value => !indented
        | _ => false
      let item ← if ended then pure Node.empty else readNode fuel .block
      return item :: (← readItems fuel indented)
    | .blockEnd =>
      if indented then drop
      return []
    | _ => if indented then fail else return []
termination_by structural n => n

def readEntries : Nat → Reading (List (Node × Node))
  | 0 => fail
  | fuel + 1 => do
    match ← peek with
    | .key =>
      drop
      let key ← if endsEntry (← peek) then pure Node.empty else readNode fuel .inMapping
      let value ← readEntryValue fuel
      return (key, value) :: (← readEntries fuel)
    | .blockEnd =>
      drop
      return []
    | _ => fail
termination_by structural n => n

def readEntryValue : Nat → Reading Node
  | 0 => fail
  | fuel + 1 => do
    if !isValue (← peek) then return Node.empty
    drop
    if endsEntry (← peek) then return Node.empty else readNode fuel .inMapping
termination_by structural n => n

def readFlowValue : Nat → Bool → Reading Node
  | 0, _ => fail
  | fuel + 1, inSequence => do
    if !isValue (← peek) then return Node.empty
    drop
    if endsFlowEntry inSequence (← peek) then return Node.empty else readNode fuel .flow
termination_by structural n => n

/-- Reads a key and its value in a flow collection, behind the sign of the key. -/
def readFlowPair : Nat → Bool → Reading (Node × Node)
  | 0, _ => fail
  | fuel + 1, inSequence => do
    let token ← peek
    let key ←
      if isValue token || endsFlowEntry inSequence token then pure Node.empty
      else readNode fuel .flow
    return (key, ← readFlowValue fuel inSequence)
termination_by structural n => n

/-- Reads the items of a flow sequence. A key and its value are a mapping of their own. -/
def readFlowItems : Nat → Bool → Reading (List Node)
  | 0, _ => fail
  | fuel + 1, first => do
    if let .flowSequenceEnd ← peek then
      drop
      return []
    passComma first
    match ← peek with
    | .flowSequenceEnd =>
      drop
      return []
    | .key =>
      drop
      let pair ← readFlowPair fuel true
      return .mapping .map [pair] :: (← readFlowItems fuel false)
    | _ =>
      let item ← readNode fuel .flow
      return item :: (← readFlowItems fuel false)
termination_by structural n => n

/-- Reads the entries of a flow mapping. A node that is no key has no value. -/
def readFlowEntries : Nat → Bool → Reading (List (Node × Node))
  | 0, _ => fail
  | fuel + 1, first => do
    if let .flowMappingEnd ← peek then
      drop
      return []
    passComma first
    match ← peek with
    | .flowMappingEnd =>
      drop
      return []
    | .key =>
      drop
      let pair ← readFlowPair fuel false
      return pair :: (← readFlowEntries fuel false)
    | _ =>
      let key ← readNode fuel .flow
      return (key, Node.empty) :: (← readFlowEntries fuel false)
termination_by structural n => n

end

def usualHandles : List (String × String) := [("!", "!"), ("!!", Tag.standardStart)]

/-- Reads directives: whether a version has been given, and the handles. -/
def readDirectives : Nat → Bool → List (String × String) → Reading (List (String × String))
  | 0, _, _ => fail
  | fuel + 1, versioned, handles => do
    match ← peek with
    | .directive d =>
      drop
      match d with
      | .version major =>
        if versioned || major != 1 then fail else readDirectives fuel true handles
      | .tag handle start =>
        if (handles.lookup handle).isSome then fail
        else readDirectives fuel versioned ((handle, start) :: handles)
      | .unknown => readDirectives fuel versioned handles
    | _ => return handles

/-- Passes marks of the end of a document. -/
def passEnds : Nat → Reading Unit
  | 0 => return
  | fuel + 1 => do
    if let .documentEnd ← peek then
      drop
      passEnds fuel

def readMarked (fuel : Nat) : Reading Node := do
  let handles ← readDirectives fuel false []
  match ← peek with
  | .documentStart => drop
  | _ => fail
  modify fun s ↦ { s with handles := handles ++ usualHandles }
  match ← peek with
  | .directive _ | .documentStart | .documentEnd | .streamEnd => return Node.empty
  | _ => readNode fuel .block

/-- Reads the only document of a text; there need not be one. -/
def readDocument (fuel : Nat) : Reading (Option Node) := do
  let node ← match ← peek with
    | .streamEnd => pure none
    | .directive _ | .documentStart => some <$> readMarked fuel
    | _ => some <$> readNode fuel .block
  passEnds fuel
  match ← peek with
  | .streamEnd => return node
  | _ => fail

/-- The node of the document that a text is, if it has one. -/
def nodeOf (s : List Char) : Except Fault (Option Node) := do
  let tokens ← tokensOf s
  let fuel := 4 * tokens.length + 4
  let (node, _) ← (readDocument fuel).run { tokens, handles := usualHandles }
  return node

end SafeMarkdown.Yaml
