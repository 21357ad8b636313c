import Stache.Traversal.Basic
import Stache.Tree.Render

/-!
# Printing a tree

The printer goes through a tree as a traversal that enters every node that it
prints.  It writes the lines of statements to one buffer and the text of an
expression to another, at a padding that it counts up and down.

* The text of a part of a call or of a hash is captured: the buffer for
  expressions is set aside while the part is printed, and put back after it.
* The sections of a block are printed with more padding.
* The body of a partial is printed inside the line of the partial: the buffer
  for lines is set aside for it.

A call at the head of a path is printed with the path, and its node is not
entered.
-/

namespace Stache

/-- What a printer holds. -/
structure Printer where
  /-- The lines printed so far. -/
  out : String := ""
  /-- The level of the next line. -/
  padding : Nat := 0
  /-- The text of the expression that is being printed. -/
  inline : String := ""
deriving DecidableEq, Repr

/-- A piece of printing: a walk that carries the printer along. -/
abbrev Printing (α : Type) := StateT Printer Walk α

namespace Printing

/-! ## The buffers -/

/-- A piece of printing inside of a node. -/
def within {α : Type} (node : Node) (inside : Printing α) : Printing α := fun p =>
  Walk.visit node (inside p)

/-- A line at the current level. -/
def padded (text : String) : Printing String := return Render.line (← get).padding text

/-- A line printed. -/
def pad (text : String) : Printing Unit := do
  let line ← padded text
  modify fun p => { p with out := p.out ++ line }

/-- More text of the current expression. -/
def write (text : String) : Printing Unit := modify fun p => { p with inline := p.inline ++ text }

/-- What is written, as the text of an expression of its own. -/
def capture (f : Printing Unit) : Printing String := do
  let saved := (← get).inline
  modify fun p => { p with inline := "" }
  f
  let text := (← get).inline
  modify fun p => { p with inline := saved }
  return text

/-- The lines that are printed, as a text. -/
def aside (f : Printing Unit) : Printing String := do
  let saved := (← get).out
  modify fun p => { p with out := "" }
  f
  let text := (← get).out
  modify fun p => { p with out := saved }
  return text

/-- A piece of printing one level deeper. -/
def deeper (f : Printing Unit) : Printing Unit := do
  modify fun p => { p with padding := p.padding + 1 }
  f
  modify fun p => { p with padding := p.padding - 1 }

/-! ## Expressions -/

mutual

/-- An expression. -/
def expr : Expr → Printing Unit
  | .path node => within (.expr (.path node)) (path node)
  | .sub node => within (.expr (.sub node)) do write (← subExpr node)
  | .string value written loc =>
      within (.expr (.string value written loc)) (write ("\"" ++ value.str ++ "\""))
  | .number value written loc =>
      within (.expr (.number value written loc)) (write ("n%" ++ value.display))
  | .boolean value written loc =>
      within (.expr (.boolean value written loc))
        (write ("b%" ++ (if value then "true" else "false")))
  | .undefined loc => within (.expr (.undefined loc)) (write "UNDEFINED")
  | .null loc => within (.expr (.null loc)) (write "NULL")
  | .array items loc =>
      within (.expr (.array items loc)) do
        let items ← exprs items
        write ("ARRAY[" ++ ", ".intercalate items ++ "]")
  | .hash list loc =>
      within (.expr (.hash list loc)) do
        let list ← pairs list
        write (Render.hashText list)

/-- A path. -/
def path : Path → Printing Unit
  | ⟨data, fromThis, _, head, tail, _, _⟩ => do
      let head ← pathHead head
      write (Render.pathText data fromThis head tail)

/-- The text of the head of a path. -/
def pathHead : Option PathHead → Printing String
  | none => return ""
  | some head => headText head

/-- The text of a head that is there. -/
def headText : PathHead → Printing String
  | .segment name => return name.str
  | .sub node => return "[" ++ (← subExpr node) ++ "]"

/-- The text of a call in parentheses, without the parentheses. -/
def subExpr : SubExpr → Printing String
  | ⟨node, _, _⟩ => call node

/-- The text of a call. -/
def call : Call → Printing String
  | ⟨head, params, named⟩ => do
      let head ← capture (expr head)
      let params ← exprs params
      let named ← hash? named
      return Render.callText head params named

/-- The text of a hash, if there is one. -/
def hash? : Option Hash → Printing (Option String)
  | none => return none
  | some named => return some (← capture (hash named))

/-- A hash. -/
def hash : Hash → Printing Unit
  | ⟨list, loc⟩ =>
      within (.hash ⟨list, loc⟩) do
        let list ← pairs list
        write (Render.hashText list)

/-- A pair. -/
def pair : HashPair → Printing Unit
  | ⟨key, value, loc⟩ =>
      within (.hashPair ⟨key, value, loc⟩) do
        let value ← capture (expr value)
        write (key.str ++ "=" ++ value)

/-- The texts of a list of expressions. -/
def exprs : List Expr → Printing (List String)
  | [] => return []
  | e :: rest => do
      let text ← capture (expr e)
      let texts ← exprs rest
      return text :: texts

/-- The texts of a list of pairs. -/
def pairs : List HashPair → Printing (List String)
  | [] => return []
  | p :: rest => do
      let text ← capture (pair p)
      let texts ← pairs rest
      return text :: texts

end

/-- The text of the first parameter of a partial, if it has one. -/
def firstParam : List Expr → Printing String
  | [] => return ""
  | e :: _ => return " " ++ (← capture (expr e))

/-- The head of a partial: its name, its first parameter and its hash. -/
def inclusionHead (c : Call) : Printing String := do
  let name := ((c.head.written?).map Text.str).getD ""
  let param ← firstParam c.params
  let named ← hash? c.hash
  let named :=
    match named with
    | some text => " " ++ text
    | none => ""
  return name ++ param ++ named

/-- The line for the names of a block. -/
def blockParams : Option (List Text) → Printing Unit
  | none => return
  | some names =>
      pad ("BLOCK PARAMS: [" ++ String.join (names.map fun n => " " ++ n.str) ++ " ]")

/-! ## Statements -/

mutual

/-- A statement. -/
def statement : Statement → Printing Unit
  | .mustache node =>
      within (.statement (.mustache node)) do
        let text ← call node.call
        pad (Render.tagOpen ++ " " ++ text ++ " " ++ Render.tagClose)
  | .decorator node =>
      within (.statement (.decorator node)) do
        let text ← call node.call
        pad (Render.tagOpen ++ " DIRECTIVE " ++ text ++ " " ++ Render.tagClose)
  | .block node => within (.statement (.block node)) (block "BLOCK:" node)
  | .decoratorBlock node =>
      within (.statement (.decoratorBlock node)) (block "DIRECTIVE BLOCK:" node)
  | .inclusion node =>
      within (.statement (.inclusion node)) do
        let text ← inclusionHead node.call
        pad (Render.tagOpen ++ "> PARTIAL:" ++ text ++ " " ++ Render.tagClose)
  | .inclusionBlock node => within (.statement (.inclusionBlock node)) (inclusionBlock node)
  | .content node =>
      within (.statement (.content node)) (pad ("CONTENT[ '" ++ node.value.str ++ "' ]"))
  | .comment node =>
      within (.statement (.comment node))
        (pad (Render.tagOpen ++ "! '" ++ node.value.str ++ "' " ++ Render.tagClose))

/-- A block with the title of its kind. -/
def block (title : String) : Block → Printing Unit
  | ⟨called, main, inverse, _, _, _, _⟩ => do
      pad title
      deeper do
        let text ← call called
        pad text
        subsection "PROGRAM:" main
        subsection (Render.tagOpen ++ "^" ++ Render.tagClose) inverse

/-- A partial with a body.  The body stands inside the line of the partial. -/
def inclusionBlock : InclusionBlock → Printing Unit
  | ⟨called, main, _, _, _⟩ => do
      let text ← inclusionHead called
      let title ← padded "PROGRAM:"
      let body ← aside (deeper (program main))
      pad (Render.tagOpen ++ "> PARTIAL BLOCK:" ++ text ++ " " ++ title ++ body ++ " " ++
        Render.tagClose)

/-- A section of a block under its title, if the block has it. -/
def subsection (title : String) : Option Program → Printing Unit
  | none => return
  | some p => do
      pad title
      deeper (program p)

/-- A program. -/
def program : Program → Printing Unit
  | ⟨body, names, chained, loc⟩ =>
      within (.program ⟨body, names, chained, loc⟩) do
        blockParams names
        statements body

/-- The statements of a list, one after the other. -/
def statements : List Statement → Printing Unit
  | [] => return
  | s :: rest => do
      statement s
      statements rest

end

end Printing

/-- The text that a printer leaves of a template. -/
def Program.print (p : Program) : String := ((Printing.program p).run {}).run.value.2.out

end Stache
