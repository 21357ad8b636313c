import Stache.Traversal.Basic

/-!
# Reading a tree

The visits of a tree, a node before its children and the children in order: the
head of a call, its parameters, its hash, then the sections of a block.  The
call at the head of a path belongs to the path and is not visited.

A caller chooses the kinds of nodes whose children it wants to see.
-/

namespace Stache
namespace Visits

variable (enters : Kind → Bool)

/-- A node, with its children if its kind is entered. -/
def enter (node : Node) (children : Walk Unit) : Walk Unit :=
  Walk.visit node (if enters node.kind then children else pure ())

mutual

/-- The visits of an expression. -/
def expr : Expr → Walk Unit
  | .sub node => enter enters (.expr (.sub node)) (subExpr node)
  | .array items loc => enter enters (.expr (.array items loc)) (exprs items)
  | .hash pairs loc => enter enters (.expr (.hash pairs loc)) (hashPairs pairs)
  | .path node => enter enters (.expr (.path node)) (pure ())
  | .string value written loc => enter enters (.expr (.string value written loc)) (pure ())
  | .number value written loc => enter enters (.expr (.number value written loc)) (pure ())
  | .boolean value written loc => enter enters (.expr (.boolean value written loc)) (pure ())
  | .undefined loc => enter enters (.expr (.undefined loc)) (pure ())
  | .null loc => enter enters (.expr (.null loc)) (pure ())

/-- The visits inside a call in parentheses. -/
def subExpr : SubExpr → Walk Unit
  | ⟨inner, _, _⟩ => call inner

/-- The visits of the parts of a call. -/
def call : Call → Walk Unit
  | ⟨head, params, hash⟩ => do
      expr head
      exprs params
      hash? hash

/-- The visits of the named arguments of a call. -/
def hash? : Option Hash → Walk Unit
  | none => pure ()
  | some h => hash h

/-- The visits of a hash. -/
def hash : Hash → Walk Unit
  | ⟨pairs, loc⟩ => enter enters (.hash ⟨pairs, loc⟩) (hashPairs pairs)

/-- The visits of a named argument. -/
def hashPair : HashPair → Walk Unit
  | ⟨key, value, loc⟩ => enter enters (.hashPair ⟨key, value, loc⟩) (expr value)

/-- The visits of a list of expressions. -/
def exprs : List Expr → Walk Unit
  | [] => pure ()
  | e :: rest => do
      expr e
      exprs rest

/-- The visits of a list of named arguments. -/
def hashPairs : List HashPair → Walk Unit
  | [] => pure ()
  | p :: rest => do
      hashPair p
      hashPairs rest

end

mutual

/-- The visits of a statement. -/
def statement : Statement → Walk Unit
  | .mustache node => enter enters (.statement (.mustache node)) (call enters node.call)
  | .decorator node => enter enters (.statement (.decorator node)) (call enters node.call)
  | .inclusion node => enter enters (.statement (.inclusion node)) (call enters node.call)
  | .block node => enter enters (.statement (.block node)) (block node)
  | .decoratorBlock node => enter enters (.statement (.decoratorBlock node)) (block node)
  | .inclusionBlock node => enter enters (.statement (.inclusionBlock node)) (inclusionBlock node)
  | .content node => enter enters (.statement (.content node)) (pure ())
  | .comment node => enter enters (.statement (.comment node)) (pure ())

/-- The visits inside a block. -/
def block : Block → Walk Unit
  | ⟨inner, main, inverse, _, _, _, _⟩ => do
      call enters inner
      program? main
      program? inverse

/-- The visits inside a partial with a body. -/
def inclusionBlock : InclusionBlock → Walk Unit
  | ⟨inner, main, _, _, _⟩ => do
      call enters inner
      program main

/-- The visits of a section of a block. -/
def program? : Option Program → Walk Unit
  | none => pure ()
  | some p => program p

/-- The visits of a program. -/
def program : Program → Walk Unit
  | ⟨body, blockParams, chained, loc⟩ =>
      enter enters (.program ⟨body, blockParams, chained, loc⟩) (statements body)

/-- The visits of a list of statements. -/
def statements : List Statement → Walk Unit
  | [] => pure ()
  | s :: rest => do
      statement s
      statements rest

end

end Visits

/-- The traversal of a whole tree that goes below the kinds in `enters`. -/
def Program.walk (enters : Kind → Bool) (p : Program) : Walked Unit :=
  (Visits.program enters p).run

end Stache
