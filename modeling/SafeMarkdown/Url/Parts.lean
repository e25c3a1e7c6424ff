import SafeMarkdown.Text.Blank
import SafeMarkdown.Url.Percent
import SafeMarkdown.Url.Punycode

/-!
# The parts of a URL

A URL is taken apart into its scheme, its authority and what follows. In the form for a link the
name of a host is ASCII and all else is percent encoded; in the form for reading both are decoded.
-/

namespace SafeMarkdown.Url

structure Parts where
  scheme : List Char := []
  slashes : Bool := false
  auth : List Char := []
  host : List Char := []
  port : List Char := []
  /-- Path, query and fragment. -/
  rest : List Char := []

def isSchemeChar (c : Char) : Bool :=
  isAsciiAlphanumeric c || c == '.' || c == '+' || c == '-'

/-- A text parted after the scheme that it starts with, which includes its colon. -/
def splitScheme (s : List Char) : List Char × List Char :=
  let word := s.takeWhile isSchemeChar
  match s.drop word.length with
  | ':' :: rest => if word.isEmpty then ([], s) else (word ++ [':'], rest)
  | _ => ([], s)

def slashedSchemes : List String := ["http:", "https:", "ftp:", "gopher:", "file:"]

def endsAuthority (c : Char) : Bool :=
  c == '/' || c == '?' || c == '#'

def endsHost (c : Char) : Bool :=
  "%/?;#'\x7b\x7d|\\^`<>\" \r\n\t".toList.contains c

/-- A text parted at the last at sign before the end of the authority, if there is one. -/
def splitAuth (s : List Char) : List Char × List Char :=
  let authority := s.takeWhile (!endsAuthority ·)
  if authority.contains '@' then
    let host := (authority.reverse.takeWhile (· != '@')).reverse
    let auth := authority.take (authority.length - host.length - 1)
    (auth, s.drop (auth.length + 1))
  else ([], s)

/-- A host parted before its port. -/
def splitPort (s : List Char) : List Char × List Char :=
  let digits := (s.reverse.takeWhile Char.isDigit).reverse
  let before := s.take (s.length - digits.length)
  if before.getLast? == some ':' then (before.dropLast, digits) else (s, [])

/-- Whether a character may be part of a label, those outside ASCII counting as letters. -/
def isLabelChar (c : Char) : Bool :=
  isAsciiAlphanumeric c || c == '+' || c == '_' || c == '-' || 127 < c.toNat

def isPlainLabelChar (c : Char) : Bool :=
  isLabelChar c && c.toNat ≤ 127

/-- Checks the labels of a host: at the first that is none, the host ends, and the rest of it
belongs to the path. -/
def checkLabels : List (List Char) → List (List Char) × Option (List (List Char))
  | [] => ([], none)
  | l :: ls =>
    if l.all isLabelChar && l.length ≤ 63 then
      let (good, rest) := checkLabels ls
      (l :: good, rest)
    else
      let start := (l.takeWhile isPlainLabelChar).take 63
      ([start], some (l.drop start.length :: ls))

def isBracketed (host : List Char) : Bool :=
  host.head? == some '[' && host.getLast? == some ']'

def checkHost (host : List Char) : List Char × List Char :=
  if isBracketed host then
    (if host.length ≤ 255 then (host.drop 1).dropLast else [], [])
  else
    let (good, bad) := checkLabels (Text.splitAtEach (· == '.') host)
    let name := ['.'].intercalate good
    (if name.length ≤ 255 then name else [], (bad.map ['.'].intercalate).getD [])

def withAuthority (scheme : List Char) (slashes : Bool) (s : List Char) : Parts :=
  let (auth, s) := splitAuth s
  let taken := s.takeWhile (!endsHost ·)
  let hostAndPort := if taken.getLast? == some ':' then taken.dropLast else taken
  let (host, port) := splitPort hostAndPort
  let (host, extra) := checkHost host
  { scheme, slashes, auth, host, port, rest := extra ++ s.drop hostAndPort.length }

/-- The parts of a text that is read as a URL. -/
def parse (s : List Char) : Parts :=
  let (scheme, after) := splitScheme (Text.trim s)
  let hostless := String.ofList scheme == "javascript:"
  let slashes := "//".toList.isPrefixOf after && !hostless
  let after := if slashes then after.drop 2 else after
  let slashed := slashedSchemes.contains (String.ofList scheme)
  if !hostless && (slashes || (!scheme.isEmpty && !slashed)) then withAuthority scheme slashes after
  else { scheme, slashes, rest := after }

/-- The text of a URL. -/
def Parts.format (p : Parts) : List Char :=
  p.scheme ++ (if p.slashes then ['/', '/'] else []) ++
    (if p.auth.isEmpty then [] else p.auth ++ ['@']) ++
    (if p.host.contains ':' then '[' :: p.host ++ [']'] else p.host) ++
    (if p.port.isEmpty then [] else ':' :: p.port) ++ p.rest

def namedHostSchemes : List String := ["", "http:", "https:", "mailto:"]

/-- The parts with the name of the host changed, where the scheme has one. -/
def Parts.mapHost (f : List Char → List Char) (p : Parts) : Parts :=
  if namedHostSchemes.contains (String.ofList p.scheme) then { p with host := f p.host } else p

def normalize (s : List Char) : List Char :=
  encode ((parse s).mapHost asciiName).format

def readable (s : List Char) : List Char :=
  decode ((parse s).mapHost readableName).format

end SafeMarkdown.Url
