import Stache.Proofs.Tree.Unlocated
import Stache.Tree.Render

/-!
# What shows in print

`Program.visible` takes from a tree all that its canonical text does not show:

* the places of nodes,
* the markers of tags, and whether a tag escapes what it writes,
* whether a section is the next link of an else chain,
* the indents of partials,
* of a text, how it was written and where it was trimmed,
* of a path, how many levels it goes up,
* the spelling of an expression, unless the expression names a partial.

A partial is printed by the spelling of its name alone, so this spelling stays
and the rest of the name is treated like any other expression.  Rendering does
not see the difference (`Render.program_visible`).
-/

namespace Stache

/-! ## Expressions -/

mutual

/-- What shows of an expression. -/
def Expr.visible : Expr → Expr
  | .path node => .path node.visible
  | .sub node => .sub node.visible
  | .string value _ _ => .string value [] .nowhere
  | .number value _ _ => .number value [] .nowhere
  | .boolean value _ _ => .boolean value [] .nowhere
  | .undefined _ => .undefined .nowhere
  | .null _ => .null .nowhere
  | .array items _ => .array (exprsVisible items) .nowhere
  | .hash pairs _ => .hash (pairsVisible pairs) .nowhere

/-- What shows of the head of a path. -/
def PathHead.visible : PathHead → PathHead
  | .segment name => .segment name
  | .sub node => .sub node.visible

/-- What shows of a path. -/
def Path.visible : Path → Path
  | ⟨data, fromThis, _, head, tail, _, _⟩ =>
      ⟨data, fromThis, 0, headVisible head, tail, [], .nowhere⟩

/-- What shows of the head of a path, if there is one. -/
def headVisible : Option PathHead → Option PathHead
  | none => none
  | some head => some head.visible

/-- What shows of a call in parentheses. -/
def SubExpr.visible : SubExpr → SubExpr
  | ⟨call, _, _⟩ => ⟨call.visible, [], .nowhere⟩

/-- What shows of a call. -/
def Call.visible : Call → Call
  | ⟨head, params, hash⟩ => ⟨head.visible, exprsVisible params, hashVisible hash⟩

/-- What shows of a hash, if there is one. -/
def hashVisible : Option Hash → Option Hash
  | none => none
  | some hash => some hash.visible

/-- What shows of a hash. -/
def Hash.visible : Hash → Hash
  | ⟨pairs, _⟩ => ⟨pairsVisible pairs, .nowhere⟩

/-- What shows of a pair. -/
def HashPair.visible : HashPair → HashPair
  | ⟨key, value, _⟩ => ⟨key, value.visible, .nowhere⟩

/-- What shows of some expressions. -/
def exprsVisible : List Expr → List Expr
  | [] => []
  | e :: more => e.visible :: exprsVisible more

/-- What shows of some pairs. -/
def pairsVisible : List HashPair → List HashPair
  | [] => []
  | pair :: more => pair.visible :: pairsVisible more

end

/-- An expression in another spelling, if it has one of its own. -/
def Expr.respelled (text : Text) : Expr → Expr
  | .path node => .path { node with written := text }
  | .sub node => .sub { node with written := text }
  | .string value _ loc => .string value text loc
  | .number value _ loc => .number value text loc
  | .boolean value _ loc => .boolean value text loc
  | other => other

/-- What shows of the name of a partial, and its spelling. -/
def Expr.visibleName (e : Expr) : Expr := e.visible.respelled (e.written?.getD [])

/-- What shows of the call of a partial. -/
def Call.visibleNamed (c : Call) : Call := { c.visible with head := c.head.visibleName }

/-! ## Statements -/

mutual

/-- What shows of a statement. -/
def Statement.visible : Statement → Statement
  | .mustache ⟨call, _, _, _⟩ => .mustache ⟨call.visible, true, {}, .nowhere⟩
  | .decorator ⟨call, _, _, _⟩ => .decorator ⟨call.visible, true, {}, .nowhere⟩
  | .block node => .block node.visible
  | .decoratorBlock node => .decoratorBlock node.visible
  | .inclusion ⟨call, _, _, _⟩ => .inclusion ⟨call.visibleNamed, [], {}, .nowhere⟩
  | .inclusionBlock node => .inclusionBlock node.visible
  | .content ⟨value, _, _, _, _⟩ => .content ⟨value, [], false, false, .nowhere⟩
  | .comment ⟨value, _, _⟩ => .comment ⟨value, {}, .nowhere⟩

/-- What shows of a block. -/
def Block.visible : Block → Block
  | ⟨call, main, inverse, _, _, _, _⟩ =>
      ⟨call.visible, Section.visible main, Section.visible inverse, {}, {}, {}, .nowhere⟩

/-- What shows of a partial with a body. -/
def InclusionBlock.visible : InclusionBlock → InclusionBlock
  | ⟨call, main, _, _, _⟩ => ⟨call.visibleNamed, main.visible, {}, {}, .nowhere⟩

/-- What shows of some statements. -/
def Body.visible : List Statement → List Statement
  | [] => []
  | s :: rest => s.visible :: Body.visible rest

/-- What shows of a section, if it is there. -/
def Section.visible : Option Program → Option Program
  | none => none
  | some p => some p.visible

/-- What shows of a program. -/
def Program.visible : Program → Program
  | ⟨body, names, _, _⟩ => ⟨Body.visible body, names, false, none⟩

end

/-- The name of a partial keeps its spelling. -/
theorem Expr.written?_visibleName (e : Expr) : e.visibleName.written? = e.written? := by
  cases e <;> rfl

/-! ## The text of an expression -/

namespace Render

mutual

/-- The text of an expression is that of what shows of it. -/
theorem expr_visible : ∀ e : Expr, expr e.visible = expr e
  | .path node => path_visible node
  | .sub node => subExpr_visible node
  | .string _ _ _ | .number _ _ _ | .boolean _ _ _ | .undefined _ | .null _ => rfl
  | .array items _ => by
      rw [Expr.visible, expr, expr, exprs_visible items]
  | .hash list _ => by
      rw [Expr.visible, expr, expr, pairs_visible list]

/-- A path prints its segments, not the levels it goes up. -/
theorem path_visible : ∀ p : Path, path p.visible = path p
  | ⟨_, _, _, head, _, _, _⟩ => by
      rw [Path.visible, path, path, pathHead_visible head]

theorem pathHead_visible : ∀ head : Option PathHead, pathHead (headVisible head) = pathHead head
  | none => rfl
  | some head => headText_visible head

theorem headText_visible : ∀ head : PathHead, headText head.visible = headText head
  | .segment _ => rfl
  | .sub node => by
      rw [PathHead.visible, headText, headText, subExpr_visible node]

theorem subExpr_visible : ∀ node : SubExpr, subExpr node.visible = subExpr node
  | ⟨node, _, _⟩ => call_visible node

/-- A call prints its head and its arguments. -/
theorem call_visible : ∀ c : Call, call c.visible = call c
  | ⟨head, params, named⟩ => by
      rw [Call.visible, call, call, expr_visible head, exprs_visible params, hash?_visible named]

theorem hash?_visible : ∀ named : Option Hash, hash? (hashVisible named) = hash? named
  | none => rfl
  | some named => congrArg some (hash_visible named)

/-- A hash prints its pairs. -/
theorem hash_visible : ∀ named : Hash, hash named.visible = hash named
  | ⟨list, _⟩ => congrArg hashText (pairs_visible list)

/-- A pair prints its key and its value. -/
theorem pair_visible : ∀ p : HashPair, pair p.visible = pair p
  | ⟨_, value, _⟩ => by
      rw [HashPair.visible, pair, pair, expr_visible value]

/-- Arguments print one after another. -/
theorem exprs_visible : ∀ list : List Expr, exprs (exprsVisible list) = exprs list
  | [] => rfl
  | e :: rest => by
      rw [exprsVisible, exprs, exprs, expr_visible e, exprs_visible rest]

theorem pairs_visible : ∀ list : List HashPair, pairs (pairsVisible list) = pairs list
  | [] => rfl
  | p :: rest => by
      rw [pairsVisible, pairs, pairs, pair_visible p, pairs_visible rest]

end

/-- A partial is printed by the spelling of its name, which stays. -/
theorem inclusionHead_visibleNamed : ∀ c : Call, inclusionHead c.visibleNamed = inclusionHead c
  | ⟨head, [], named⟩ => by
      rw [Call.visibleNamed, Call.visible, inclusionHead, inclusionHead,
        Expr.written?_visibleName, hash?_visible named]
      rfl
  | ⟨head, first :: _, named⟩ => by
      rw [Call.visibleNamed, Call.visible, inclusionHead, inclusionHead,
        Expr.written?_visibleName, hash?_visible named, exprsVisible, List.head?_cons,
        List.head?_cons]
      dsimp only
      rw [expr_visible first]

/-! ## The text of a tree -/

mutual

/-- The lines of a statement show neither markers nor places. -/
theorem statement_visible (level : Nat) :
    ∀ s : Statement, statement level s.visible = statement level s
  | .mustache ⟨c, _, _, _⟩ => by
      rw [Statement.visible, statement, statement, call_visible c]
  | .decorator ⟨c, _, _, _⟩ => by
      rw [Statement.visible, statement, statement, call_visible c]
  | .block node => by
      rw [Statement.visible, statement, statement, block_visible level node]
  | .decoratorBlock node => by
      rw [Statement.visible, statement, statement, block_visible level node]
  | .inclusion ⟨c, _, _, _⟩ => by
      rw [Statement.visible, statement, statement, inclusionHead_visibleNamed c]
  | .inclusionBlock node => inclusionBlock_visible level node
  | .content ⟨_, _, _, _, _⟩ => rfl
  | .comment ⟨_, _, _⟩ => rfl

/-- The lines of a block are those of its call and its sections. -/
theorem block_visible (level : Nat) : ∀ node : Block, block level node.visible = block level node
  | ⟨c, main, inverse, _, _, _, _⟩ => by
      rw [Block.visible, block, block, call_visible c, subsection_visible (level + 1) _ main,
        subsection_visible (level + 1) _ inverse]

/-- The lines of a partial block are those of its name and its section. -/
theorem inclusionBlock_visible (level : Nat) :
    ∀ node : InclusionBlock, inclusionBlock level node.visible = inclusionBlock level node
  | ⟨c, main, _, _, _⟩ => by
      rw [InclusionBlock.visible, inclusionBlock, inclusionBlock, inclusionHead_visibleNamed c,
        program_visible (level + 1) main]

/-- A section is printed below its title, whether it is a link of a chain or not. -/
theorem subsection_visible (level : Nat) (title : String) :
    ∀ p : Option Program, subsection level title (Section.visible p) = subsection level title p
  | none => rfl
  | some p => by
      rw [Section.visible, subsection, subsection, program_visible (level + 1) p]

/-- **A tree prints like what shows of it.** -/
theorem program_visible (level : Nat) : ∀ p : Program, program level p.visible = program level p
  | ⟨body, _, _, _⟩ => by
      rw [Program.visible, program, program, statements_visible level body]

/-- The lines of a list are those of its statements. -/
theorem statements_visible (level : Nat) :
    ∀ body : List Statement, statements level (Body.visible body) = statements level body
  | [] => rfl
  | s :: rest => by
      rw [Body.visible, statements, statements, statement_visible level s,
        statements_visible level rest]

end

end Render
end Stache
