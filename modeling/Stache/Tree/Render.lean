import Stache.Binary64.Shortest
import Stache.Tree.Basic

/-!
# Rendering a tree

The canonical text of a tree has a line for each statement, indented by two
spaces for each level.  Expressions stand inside the lines.  The text of a node
depends on the node and its level alone, and the text of a list is the texts of
its members one after the other.
-/

namespace Stache
namespace Render

/-- A line at a level. -/
def line (level : Nat) (text : String) : String :=
  String.join (List.replicate level "  ") ++ text ++ "\n"

/-- `{{` -/
def tagOpen : String := "\x7b\x7b"

/-- `}}` -/
def tagClose : String := "\x7d\x7d"

/-! ## Expressions -/

/-- The pairs of a hash. -/
def hashText (pairs : List String) : String := "HASH\x7b" ++ " ".intercalate pairs ++ "\x7d"

/-- A call: the head, the parameters in brackets and the hash. -/
def callText (head : String) (params : List String) (hash : Option String) : String :=
  let named :=
    match hash with
    | some text => " " ++ text
    | none => ""
  head ++ " [" ++ ", ".intercalate params ++ "]" ++ named

/-- What stands in front of the segments of a path. -/
def pathMark (data fromThis : Bool) : String :=
  if data then "@" else if fromThis then "this." else ""

/-- A path: its mark and its segments. -/
def pathText (data fromThis : Bool) (head : String) (tail : List Text) : String :=
  "p%" ++ pathMark data fromThis ++ "/".intercalate (head :: tail.map Text.str)

mutual

/-- The text of an expression. -/
def expr : Expr → String
  | .path node => path node
  | .sub node => subExpr node
  | .string value _ _ => "\"" ++ value.str ++ "\""
  | .number value _ _ => "n%" ++ value.display
  | .boolean value _ _ => "b%" ++ (if value then "true" else "false")
  | .undefined _ => "UNDEFINED"
  | .null _ => "NULL"
  | .array items _ => "ARRAY[" ++ ", ".intercalate (exprs items) ++ "]"
  | .hash list _ => hashText (pairs list)

/-- The text of a path. -/
def path : Path → String
  | ⟨data, fromThis, _, head, tail, _, _⟩ => pathText data fromThis (pathHead head) tail

/-- The text of the head of a path. -/
def pathHead : Option PathHead → String
  | none => ""
  | some head => headText head

/-- The text of a head that is there. -/
def headText : PathHead → String
  | .segment name => name.str
  | .sub node => "[" ++ subExpr node ++ "]"

/-- The text of a call in parentheses, without the parentheses. -/
def subExpr : SubExpr → String
  | ⟨node, _, _⟩ => call node

/-- The text of a call. -/
def call : Call → String
  | ⟨head, params, named⟩ => callText (expr head) (exprs params) (hash? named)

/-- The text of a hash, if there is one. -/
def hash? : Option Hash → Option String
  | none => none
  | some named => some (hash named)

/-- The text of a hash. -/
def hash : Hash → String
  | ⟨list, _⟩ => hashText (pairs list)

/-- The text of a pair. -/
def pair : HashPair → String
  | ⟨key, value, _⟩ => key.str ++ "=" ++ expr value

/-- The texts of a list of expressions. -/
def exprs : List Expr → List String
  | [] => []
  | e :: rest => expr e :: exprs rest

/-- The texts of a list of pairs. -/
def pairs : List HashPair → List String
  | [] => []
  | p :: rest => pair p :: pairs rest

end

/-- The head of a partial: its name, its first parameter and its hash. -/
def inclusionHead (c : Call) : String :=
  let name := ((c.head.written?).map Text.str).getD ""
  let param :=
    match c.params.head? with
    | some e => " " ++ expr e
    | none => ""
  let named :=
    match hash? c.hash with
    | some text => " " ++ text
    | none => ""
  name ++ param ++ named

/-- The line for the names of a block. -/
def blockParams (level : Nat) : Option (List Text) → String
  | none => ""
  | some names =>
      line level ("BLOCK PARAMS: [" ++ String.join (names.map fun n => " " ++ n.str) ++ " ]")

/-! ## Statements -/

mutual

/-- The text of a statement at a level. -/
def statement (level : Nat) : Statement → String
  | .mustache node => line level (tagOpen ++ " " ++ call node.call ++ " " ++ tagClose)
  | .decorator node => line level (tagOpen ++ " DIRECTIVE " ++ call node.call ++ " " ++ tagClose)
  | .block node => line level "BLOCK:" ++ block level node
  | .decoratorBlock node => line level "DIRECTIVE BLOCK:" ++ block level node
  | .inclusion node =>
      line level (tagOpen ++ "> PARTIAL:" ++ inclusionHead node.call ++ " " ++ tagClose)
  | .inclusionBlock node => inclusionBlock level node
  | .content node => line level ("CONTENT[ '" ++ node.value.str ++ "' ]")
  | .comment node => line level (tagOpen ++ "! '" ++ node.value.str ++ "' " ++ tagClose)

/-- The lines of a block below its first. -/
def block (level : Nat) : Block → String
  | ⟨called, main, inverse, _, _, _, _⟩ =>
      line (level + 1) (call called) ++ subsection (level + 1) "PROGRAM:" main ++
        subsection (level + 1) (tagOpen ++ "^" ++ tagClose) inverse

/-- A partial with a body.  The body stands inside the line of the partial. -/
def inclusionBlock (level : Nat) : InclusionBlock → String
  | ⟨called, main, _, _, _⟩ =>
      line level
        (tagOpen ++ "> PARTIAL BLOCK:" ++ inclusionHead called ++ " " ++ line level "PROGRAM:" ++
          program (level + 1) main ++ " " ++ tagClose)

/-- A section of a block under its title, if the block has it. -/
def subsection (level : Nat) (title : String) : Option Program → String
  | none => ""
  | some p => line level title ++ program (level + 1) p

/-- The text of a program at a level. -/
def program (level : Nat) : Program → String
  | ⟨body, params, _, _⟩ => blockParams level params ++ statements level body

/-- The text of a list of statements at a level. -/
def statements (level : Nat) : List Statement → String
  | [] => ""
  | s :: rest => statement level s ++ statements level rest

end

end Render

/-- The canonical text of a template. -/
def Program.render (p : Program) : String := Render.program 0 p

end Stache
