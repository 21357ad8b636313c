import Stache.Proofs.Tree.Unlocated
import Stache.Tree.Render

/-!
# Bare trees

`Program.bare` takes from a tree what does not show in its canonical text and depends on how the
template is laid out: the places, the markers of the tags, and whether a section is the next link
of an else chain.  Two trees that agree after that print the same text
(`Program.render_eq_of_bare`).
-/

namespace Stache

mutual

/-- The statement without places, markers and chains. -/
def Statement.bare : Statement → Statement
  | .mustache ⟨call, escaped, _, _⟩ => .mustache ⟨call.unlocated, escaped, {}, .nowhere⟩
  | .decorator ⟨call, escaped, _, _⟩ => .decorator ⟨call.unlocated, escaped, {}, .nowhere⟩
  | .block node => .block node.bare
  | .decoratorBlock node => .decoratorBlock node.bare
  | .inclusion ⟨call, indent, _, _⟩ => .inclusion ⟨call.unlocated, indent, {}, .nowhere⟩
  | .inclusionBlock node => .inclusionBlock node.bare
  | .content ⟨value, written, left, right, _⟩ => .content ⟨value, written, left, right, .nowhere⟩
  | .comment ⟨value, _, _⟩ => .comment ⟨value, {}, .nowhere⟩

/-- The block without places, markers and chains. -/
def Block.bare : Block → Block
  | ⟨call, main, inverse, _, _, _, _⟩ =>
      ⟨call.unlocated, Section.bare main, Section.bare inverse, {}, {}, {}, .nowhere⟩

/-- The partial with a body, without places, markers and chains. -/
def InclusionBlock.bare : InclusionBlock → InclusionBlock
  | ⟨call, main, _, _, _⟩ => ⟨call.unlocated, main.bare, {}, {}, .nowhere⟩

/-- The statements without places, markers and chains. -/
def Body.bare : List Statement → List Statement
  | [] => []
  | s :: rest => s.bare :: Body.bare rest

/-- The section, if it is there, without places, markers and chains. -/
def Section.bare : Option Program → Option Program
  | none => none
  | some p => some p.bare

/-- The program without places, markers and chains. -/
def Program.bare : Program → Program
  | ⟨body, names, _, _⟩ => ⟨Body.bare body, names, false, none⟩

end

/-- The statements of a bare program are the bare statements of the program. -/
theorem Program.body_bare (p : Program) : p.bare.body = Body.bare p.body := by
  cases p
  rfl

/-! ## The spelling of an expression -/

/-- The spelling of a path does not depend on its place. -/
@[simp] theorem Path.written_unlocated (p : Path) : p.unlocated.written = p.written := by
  cases p
  rfl

/-- The spelling of an expression does not depend on its place. -/
@[simp] theorem Expr.written?_unlocated (e : Expr) : e.unlocated.written? = e.written? := by
  cases e with
  | path p => exact congrArg some p.written_unlocated
  | sub node => exact congrArg some node.written_unlocated
  | string | number | boolean | undefined | null | array | hash => rfl

theorem Call.head_unlocated (c : Call) : c.unlocated.head = c.head.unlocated := by
  cases c
  rfl

/-! ## The text of an expression -/

namespace Render

mutual

/-- The text of an expression does not depend on places. -/
theorem expr_unlocated : ∀ e : Expr, expr e.unlocated = expr e
  | .path node => path_unlocated node
  | .sub node => subExpr_unlocated node
  | .string _ _ _ => rfl
  | .number _ _ _ => rfl
  | .boolean _ _ _ => rfl
  | .undefined _ => rfl
  | .null _ => rfl
  | .array items _ => by
      rw [Expr.unlocated, expr, expr, exprs_unlocated items]
  | .hash list _ => by
      rw [Expr.unlocated, expr, expr, pairs_unlocated list]

/-- The text of a path does not depend on places. -/
theorem path_unlocated : ∀ p : Path, path p.unlocated = path p
  | ⟨_, _, _, head, _, _, _⟩ => by
      rw [Path.unlocated, path, path, pathHead_unlocated head]

theorem pathHead_unlocated : ∀ head : Option PathHead, pathHead (headUnlocated head) = pathHead head
  | none => rfl
  | some head => headText_unlocated head

theorem headText_unlocated : ∀ head : PathHead, headText head.unlocated = headText head
  | .segment _ => rfl
  | .sub node => by
      rw [PathHead.unlocated, headText, headText, subExpr_unlocated node]

theorem subExpr_unlocated : ∀ node : SubExpr, subExpr node.unlocated = subExpr node
  | ⟨node, _, _⟩ => call_unlocated node

/-- The text of a call does not depend on places. -/
theorem call_unlocated : ∀ c : Call, call c.unlocated = call c
  | ⟨head, params, named⟩ => by
      rw [Call.unlocated, call, call, expr_unlocated head, exprs_unlocated params,
        hash?_unlocated named]

theorem hash?_unlocated : ∀ named : Option Hash, hash? (hashUnlocated named) = hash? named
  | none => rfl
  | some named => congrArg some (hash_unlocated named)

/-- The text of a hash does not depend on places. -/
theorem hash_unlocated : ∀ named : Hash, hash named.unlocated = hash named
  | ⟨list, _⟩ => congrArg hashText (pairs_unlocated list)

/-- The text of a pair does not depend on places. -/
theorem pair_unlocated : ∀ p : HashPair, pair p.unlocated = pair p
  | ⟨_, value, _⟩ => by
      rw [HashPair.unlocated, pair, pair, expr_unlocated value]

theorem exprs_unlocated : ∀ list : List Expr, exprs (exprsUnlocated list) = exprs list
  | [] => rfl
  | e :: rest => by
      rw [exprsUnlocated, exprs, exprs, expr_unlocated e, exprs_unlocated rest]

theorem pairs_unlocated : ∀ list : List HashPair, pairs (pairsUnlocated list) = pairs list
  | [] => rfl
  | p :: rest => by
      rw [pairsUnlocated, pairs, pairs, pair_unlocated p, pairs_unlocated rest]

end

/-- The name of a partial is printed the same at any place. -/
theorem inclusionHead_unlocated : ∀ c : Call, inclusionHead c.unlocated = inclusionHead c
  | ⟨head, [], named⟩ => by
      rw [Call.unlocated, inclusionHead, inclusionHead, Expr.written?_unlocated,
        hash?_unlocated named]
      rfl
  | ⟨head, first :: _, named⟩ => by
      rw [Call.unlocated, inclusionHead, inclusionHead, Expr.written?_unlocated,
        hash?_unlocated named, exprsUnlocated, List.head?_cons, List.head?_cons]
      dsimp only
      rw [expr_unlocated first]

/-! ## The text of a tree -/

mutual

/-- The lines of a statement depend neither on places nor on markers. -/
theorem statement_bare (level : Nat) : ∀ s : Statement, statement level s.bare = statement level s
  | .mustache ⟨c, _, _, _⟩ => by
      rw [Statement.bare, statement, statement, call_unlocated c]
  | .decorator ⟨c, _, _, _⟩ => by
      rw [Statement.bare, statement, statement, call_unlocated c]
  | .block node => by
      rw [Statement.bare, statement, statement, block_bare level node]
  | .decoratorBlock node => by
      rw [Statement.bare, statement, statement, block_bare level node]
  | .inclusion ⟨c, _, _, _⟩ => by
      rw [Statement.bare, statement, statement, inclusionHead_unlocated c]
  | .inclusionBlock node => inclusionBlock_bare level node
  | .content ⟨_, _, _, _, _⟩ => rfl
  | .comment ⟨_, _, _⟩ => rfl

/-- The lines of a block depend neither on places nor on markers. -/
theorem block_bare (level : Nat) : ∀ node : Block, block level node.bare = block level node
  | ⟨c, main, inverse, _, _, _, _⟩ => by
      rw [Block.bare, block, block, call_unlocated c, subsection_bare (level + 1) _ main,
        subsection_bare (level + 1) _ inverse]

theorem inclusionBlock_bare (level : Nat) :
    ∀ node : InclusionBlock, inclusionBlock level node.bare = inclusionBlock level node
  | ⟨c, main, _, _, _⟩ => by
      rw [InclusionBlock.bare, inclusionBlock, inclusionBlock, inclusionHead_unlocated c,
        program_bare (level + 1) main]

/-- A section is printed the same, whether it is a link of a chain or not. -/
theorem subsection_bare (level : Nat) (title : String) :
    ∀ p : Option Program, subsection level title (Section.bare p) = subsection level title p
  | none => rfl
  | some p => by
      rw [Section.bare, subsection, subsection, program_bare (level + 1) p]

/-- The lines of a tree are those of the bare tree. -/
theorem program_bare (level : Nat) : ∀ p : Program, program level p.bare = program level p
  | ⟨body, _, _, _⟩ => by
      rw [Program.bare, program, program, statements_bare level body]

/-- The lines of a list are those of the bare statements. -/
theorem statements_bare (level : Nat) :
    ∀ body : List Statement, statements level (Body.bare body) = statements level body
  | [] => rfl
  | s :: rest => by
      rw [Body.bare, statements, statements, statement_bare level s, statements_bare level rest]

end

end Render

/-- Trees that agree up to places, markers and chains print the same text. -/
theorem Program.render_eq_of_bare {p q : Program} (h : p.bare = q.bare) : p.render = q.render := by
  rw [Program.render, Program.render, ← Render.program_bare 0 p, ← Render.program_bare 0 q, h]

end Stache
