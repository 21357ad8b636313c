import Stache.Proofs.Tree.Contents
import Stache.Proofs.Tree.Raw

/-!
# Places in a tree

A statement of a template stands in one list of statements, between those before
it and those behind it.  The list is that of the whole template or that of a
section, and `Program.Holds` leads from the template down to it.  On the way it
collects the texts that the template has before the statement and behind it.

The link of an else chain is no place of its own: the sections of a block are its
main section and all that follows it up to the closing tag of the block.
-/

namespace Stache

mutual

/-- The sections of a statement in the order of the source, where the main
section comes first. -/
def Statement.sections : Statement → List Program
  | .block ⟨_, main, inverse, _, _, _, _⟩ => Section.sections main ++ Section.sections inverse
  | .decoratorBlock ⟨_, main, inverse, _, _, _, _⟩ =>
      Section.sections main ++ Section.sections inverse
  | .inclusionBlock ⟨_, main, _, _, _⟩ => [main]
  | .mustache _ | .decorator _ | .inclusion _ | .content _ | .comment _ => []

/-- The sections of the statement that a chained program consists of. -/
def Body.sections : List Statement → List Program
  | [] => []
  | s :: rest => Statement.sections s ++ Body.sections rest

/-- The sections that stand behind a tag of a block, if there are any: the given
one, or those of the links of an else chain. -/
def Section.sections : Option Program → List Program
  | none => []
  | some p => Program.sections p

/-- The sections that a program stands for. -/
def Program.sections : Program → List Program
  | ⟨body, blockParams, chained, loc⟩ =>
      if chained then Body.sections body else [⟨body, blockParams, chained, loc⟩]

end

/-- A statement in its list. -/
structure Place where
  /-- The list is that of the whole template. -/
  root : Bool
  /-- The statements before it, the nearest first. -/
  before : List Statement
  statement : Statement
  /-- The statements behind it. -/
  after : List Statement

/-- The template `p` has the place somewhere, between the texts `back` and the
texts `ahead`.  `root` says that `p` is the whole template and no section. -/
inductive Program.Holds (place : Place) :
    (root : Bool) → Program → (back ahead : List Content) → Prop where
  | here {blockParams : Option (List Text)} {loc : Option Location} :
      Program.Holds place place.root
        ⟨place.before.reverse ++ place.statement :: place.after, blockParams, false, loc⟩
        (Body.contents place.before.reverse) (Body.contents place.after)
  | inside {root : Bool} {before after : List Statement} {s : Statement}
      {blockParams : Option (List Text)} {loc : Option Location} {sections sections' : List Program}
      {p : Program} {back ahead : List Content} (hp : s.sections = sections ++ p :: sections')
      (h : Program.Holds place false p back ahead) :
      Program.Holds place root ⟨before ++ s :: after, blockParams, false, loc⟩
        (Body.contents before ++ (sections.flatMap Program.contents ++ back))
        (ahead ++ (sections'.flatMap Program.contents ++ Body.contents after))

theorem Body.Raw.of_append {chains : Bool} {body body' : List Statement}
    (h : Body.Raw chains (body ++ body')) : Body.Raw chains body ∧ Body.Raw chains body' := by
  induction body with
  | nil => exact ⟨.nil, h⟩
  | cons s rest ih =>
      cases h with
      | cons hs hr => exact ⟨.cons hs (ih hr).1, (ih hr).2⟩

end Stache
