import Stache.Tree.Basic

/-!
# Outlines of trees

The outline of a tree has what whitespace control looks at: the texts, the
markers, which tags may stand alone, and the sections of blocks.  Calls, names
and places are blotted out, and what makes no difference looks alike: a partial
and a comment, a decorator and a tag that writes a value, and the blocks of all
kinds.
-/

namespace Stache
namespace Outline

/-- A text that nothing has trimmed. -/
def text (t : Text) : Content := .untrimmed t default

/-- A tag that is no part of a block. -/
def leaf (lone : Bool) (strip : Strip) : Statement :=
  if lone then .comment ⟨[], strip, default⟩
  else .mustache ⟨⟨.null default, [], none⟩, true, strip, default⟩

/-- A block. -/
def block (main inverse : Option Program) (opening middle closing : Strip) : Statement :=
  .block ⟨⟨.null default, [], none⟩, main, inverse, opening, middle, closing, default⟩

/-- A section. -/
def program (chained : Bool) (body : List Statement) : Program := ⟨body, none, chained, none⟩

end Outline

mutual

/-- The outline of a statement. -/
def Statement.outline : Statement → Statement
  | .content c => .content (Outline.text c.written)
  | .mustache node | .decorator node => Outline.leaf false node.strip
  | .inclusion node => Outline.leaf true node.strip
  | .comment node => Outline.leaf true node.strip
  | .block ⟨_, main, inverse, opening, middle, closing, _⟩ =>
      Outline.block (Section.outline main) (Section.outline inverse) opening middle closing
  | .decoratorBlock ⟨_, main, inverse, opening, middle, closing, _⟩ =>
      Outline.block (Section.outline main) (Section.outline inverse) opening middle closing
  | .inclusionBlock ⟨_, main, opening, closing, _⟩ =>
      Outline.block (some (Program.outline main)) none opening {} closing

/-- The outline of a list of statements. -/
def Body.outline : List Statement → List Statement
  | [] => []
  | s :: rest => Statement.outline s :: Body.outline rest

/-- The outline of a section, if it is there. -/
def Section.outline : Option Program → Option Program
  | none => none
  | some p => some (Program.outline p)

/-- The outline of a program. -/
def Program.outline : Program → Program
  | ⟨body, _, chained, _⟩ => Outline.program chained (Body.outline body)

end

theorem Body.outline_eq_map (body : List Statement) :
    Body.outline body = body.map Statement.outline := by
  induction body with
  | nil => rfl
  | cons s rest ih => exact congrArg (List.cons _) ih

theorem Program.body_outline (p : Program) : p.outline.body = p.body.map Statement.outline := by
  obtain ⟨body, blockParams, chained, loc⟩ := p
  exact Body.outline_eq_map body

end Stache
