import Stache.Tree.Basic

/-!
# Options

What a caller may choose about reading a template.
-/

namespace Stache

/-- What `[a b c]` inside a tag is. -/
inductive BracketSyntax where
  | segment
  | list
  /-- A list, of which the function makes an expression. -/
  | custom (build : List Expr → Location → Expr)

/-- Brackets delimit a list. -/
def BracketSyntax.isList : BracketSyntax → Bool
  | .segment => false
  | .list | .custom _ => true

/-- What `(key=value ...)` is. -/
inductive HashSyntax where
  /-- A literal of its own. -/
  | literal
  /-- What the function makes of it. -/
  | custom (build : Hash → Location → Expr)

/-- The choices of a caller. -/
structure Options where
  /-- The name of the source, which every location carries. -/
  sourceName : Option String := none
  /-- What brackets are. -/
  brackets : BracketSyntax := .segment
  /-- What named arguments in parentheses are. -/
  hashes : HashSyntax := .literal
  /-- The padding around tags that stand alone stays. -/
  ignoreStandalone : Bool := false

end Stache
