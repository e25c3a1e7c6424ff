import SafeMarkdown.Text.Alphanumeric
import SafeMarkdown.Text.Blank
import SafeMarkdown.Text.LetterCase

/-!
# Slugs

A slug names a heading or a document: the lowercase text with every run of characters that are not
alphanumeric replaced by one hyphen, and no hyphen at either end. Among slugs that are taken
already, a new one gets the least positive number as a suffix that makes it new.
-/

namespace SafeMarkdown.Slug

/-- Replaces each run of characters that are not alphanumeric by a hyphen; `inRun` tells whether
such a run is being passed. -/
def hyphenate (inRun : Bool) : List Char → List Char
  | [] => []
  | c :: rest =>
    if Text.isAlphanumeric c then c :: hyphenate false rest
    else if inRun then hyphenate true rest
    else '-' :: hyphenate true rest

def ofText (s : String) : String :=
  String.ofList (Text.trimWhile (· == '-') (hyphenate false (Text.lower s.toList)))

/-- The spelling of a base with a suffix; the suffix zero is the base itself. -/
def numbered (base : String) (n : Nat) : String :=
  if n = 0 then base else base ++ "-" ++ String.ofList (Nat.toDigits 10 n)

/-- The first spelling from a suffix on that is not taken, among so many. -/
def firstFree (base : String) (taken : List String) : Nat → Nat → String
  | 0, n => numbered base n
  | fuel + 1, n =>
    if taken.contains (numbered base n) then firstFree base taken fuel (n + 1)
    else numbered base n

/-- A spelling of the base that is not taken; one more spelling than there are slugs taken is
enough to find it. -/
def unique (base : String) (taken : List String) : String :=
  firstFree base taken taken.length 0

end SafeMarkdown.Slug
