/-!
# Removals

The audit of a sanitizing run: what was taken out of the tree, in the order of the decisions.
-/

namespace SafeMarkdown

/-- Something that sanitizing takes out. -/
inductive Removal where
  /-- A node and everything below it. -/
  | drop (tag : Option String)
  /-- An element that its children replace. -/
  | unwrap (tag : String)
  /-- An attribute of a node that stays. -/
  | stripAttribute (tag : Option String) (name : String)
  /-- Markup that has no place in a tree: a comment, a declaration, or what was left unresolved. -/
  | stripMarkup
  deriving DecidableEq, Repr

namespace Removal

/-- The name of what was done. -/
def action : Removal → String
  | drop _ => "drop"
  | unwrap _ => "unwrap"
  | stripAttribute _ _ => "strip-attribute"
  | stripMarkup => "strip-markup"

/-- The tag that it was done to. -/
def tag : Removal → Option String
  | drop t => t
  | unwrap t => some t
  | stripAttribute t _ => t
  | stripMarkup => none

def attributeName : Removal → Option String
  | stripAttribute _ name => some name
  | _ => none

end Removal

end SafeMarkdown
