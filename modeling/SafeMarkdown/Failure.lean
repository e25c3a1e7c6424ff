import SafeMarkdown.Text.Quoted
import SafeMarkdown.Time.Calendar

/-!
# Failures

Everything that stops an operation, by cause, with the class name and the wording under which it is
reported. Which classes a caller recovers from is a question about causes: `isValueError`,
`isOwn` and `isFileError`.
-/

namespace SafeMarkdown

/-- What is wrong with a file or a directory, and at which path. -/
inductive FileFault where
  | missing
  | exists
  | notDirectory
  | isDirectory
  deriving DecidableEq, Repr

/-- What is wrong with a byte sequence that is to be a UTF-8 character. -/
inductive EncodingReason where
  | start
  | continuation
  | truncated
  deriving DecidableEq, Repr

/-- Why bytes are no UTF-8 text: the first of the `width` bytes at fault, where it stands, and what
is wrong. -/
structure EncodingFault where
  reason : EncodingReason
  byte : Nat
  position : Nat
  width : Nat
  deriving DecidableEq, Repr

/-- The cause that stopped an operation. -/
inductive Failure where
  /-- A metadata block cannot be read as a mapping; `body` is what to go on with regardless. -/
  | metadata (message body : String)
  /-- Fields that do not have the required form, each with its place and the kind of fault. -/
  | invalid (faults : List (String × String))
  /-- A document that does not exist. -/
  | notFound (slug : String) (path : Option String)
  | stage (name : String) (cause : Failure)
  /-- An impossible date or time. -/
  | calendar (fault : CalendarFault)
  /-- A file operation failed. -/
  | file (fault : FileFault) (path : String)
  /-- A file is not UTF-8 text. -/
  | encoding (fault : EncodingFault)
  /-- No highlighter goes by this name. -/
  | unknownLanguage (name : String)
  /-- A setting or an argument that cannot be used, told in words. -/
  | unusable (message : String)
  | wrongShape (message : String)
  /-- A value that lacks the operation asked of it. -/
  | unsupported
  | missingKey
  /-- A place in a sequence that must be there and is not. -/
  | missingItem
  /-- A failure that a caller's own stage reports. -/
  | foreign (kind message : String)
  deriving Inhabited

namespace Failure

def calendarMessage : CalendarFault → String
  | .unreadable text => "Invalid isoformat string: " ++ Text.quoted text
  | .year y => "year " ++ String.ofList (Nat.toDigits 10 y) ++ " is out of range"
  | .month => "month must be in 1..12"
  | .day => "day is out of range for month"
  | .hour => "hour must be in 0..23"
  | .minute => "minute must be in 0..59"
  | .second => "second must be in 0..59"
  | .offset seconds =>
    let days := seconds / 86400
    let rest := seconds % 86400
    "offset must be a timedelta strictly between -timedelta(hours=24) and timedelta(hours=24), " ++
      "not datetime.timedelta(days=" ++ toString days ++
      (if rest = 0 then "" else ", seconds=" ++ toString rest) ++ ")."
  | .beyondCalendar => "date value out of range"

def fileMessage (fault : FileFault) (path : String) : String :=
  let what := match fault with
    | .missing => "[Errno 2] No such file or directory: "
    | .exists => "[Errno 17] File exists: "
    | .notDirectory => "[Errno 20] Not a directory: "
    | .isDirectory => "[Errno 21] Is a directory: "
  what ++ Text.quoted path

def encodingMessage (fault : EncodingFault) : String :=
  let place :=
    if fault.width ≤ 1 then
      "byte 0x" ++ String.ofList (Text.hexDigits 2 fault.byte) ++ " in position " ++
        toString fault.position
    else
      "bytes in position " ++ toString fault.position ++ "-" ++
        toString (fault.position + fault.width - 1)
  let reason := match fault.reason with
    | .start => "invalid start byte"
    | .continuation => "invalid continuation byte"
    | .truncated => "unexpected end of data"
  "'utf-8' codec can't decode " ++ place ++ ": " ++ reason

def message : Failure → String
  | metadata m _ => m
  | invalid faults =>
    toString faults.length ++
      if faults.length == 1 then " validation error" else " validation errors"
  | notFound slug path =>
    "Document not found: " ++ slug ++
      match path with
      | some p => " (" ++ p ++ ")"
      | none => ""
  | stage name cause => "Stage '" ++ name ++ "' failed: " ++ message cause
  | calendar fault => calendarMessage fault
  | file fault path => fileMessage fault path
  | encoding fault => encodingMessage fault
  | unknownLanguage name => "no lexer for alias " ++ Text.quoted name ++ " found"
  | unusable m => m
  | wrongShape m => m
  | unsupported => ""
  | missingKey => ""
  | missingItem => ""
  | foreign _ m => m

/-- The class name under which a failure is reported. -/
def kind : Failure → String
  | metadata _ _ => "MetadataParseError"
  | invalid _ => "ValidationError"
  | notFound _ _ => "NotFound"
  | stage _ _ => "PipelineStageError"
  | calendar .beyondCalendar => "OverflowError"
  | calendar _ => "ValueError"
  | file .missing _ => "FileNotFoundError"
  | file .exists _ => "FileExistsError"
  | file .notDirectory _ => "NotADirectoryError"
  | file .isDirectory _ => "IsADirectoryError"
  | encoding _ => "UnicodeDecodeError"
  | unknownLanguage _ => "ClassNotFound"
  | unusable _ => "ValueError"
  | wrongShape _ => "TypeError"
  | unsupported => "AttributeError"
  | missingKey => "KeyError"
  | missingItem => "IndexError"
  | foreign k _ => k

/-- Whether a failure says that some given value cannot be used. -/
def isValueError : Failure → Bool
  | metadata _ _ => true
  | invalid _ => true
  | calendar .beyondCalendar => false
  | calendar _ => true
  | encoding _ => true
  | unknownLanguage _ => true
  | unusable _ => true
  | _ => false

/-- Whether a failure is one of the library's own classes. -/
def isOwn : Failure → Bool
  | metadata _ _ => true
  | notFound _ _ => true
  | stage _ _ => true
  | _ => false

def isFileError : Failure → Bool
  | file _ _ => true
  | notFound _ _ => true
  | _ => false

end Failure

end SafeMarkdown
