import Stache.Proofs.Tree.Alike

/-!
# The texts of a tree

The texts of a template in the order in which they stand in it.  The main
section of a block comes before its else section.  Alike trees have the same
number of texts, and those in the same place are related.
-/

namespace Stache

mutual

/-- The texts of a statement, in order. -/
def Statement.contents : Statement → List Content
  | .content c => [c]
  | .block ⟨_, main, inverse, _, _, _, _⟩ => Section.contents main ++ Section.contents inverse
  | .decoratorBlock ⟨_, main, inverse, _, _, _, _⟩ =>
      Section.contents main ++ Section.contents inverse
  | .inclusionBlock ⟨_, main, _, _, _⟩ => Program.contents main
  | .mustache _ | .decorator _ | .inclusion _ | .comment _ => []

/-- The texts of a list of statements, in order. -/
def Body.contents : List Statement → List Content
  | [] => []
  | s :: rest => Statement.contents s ++ Body.contents rest

/-- The texts of a section, if it is there. -/
def Section.contents : Option Program → List Content
  | none => []
  | some p => Program.contents p

/-- The texts of a program, in order. -/
def Program.contents : Program → List Content
  | ⟨body, _, _, _⟩ => Body.contents body

end

section

variable {R : Content → Content → Prop}

mutual

theorem Statement.Alike.contents : ∀ {s t : Statement}, Statement.Alike R s t →
    List.Forall₂ R s.contents t.contents
  | _, _, .mustache _ | _, _, .decorator _ | _, _, .comment _ | _, _, .inclusion _ _ => .nil
  | _, _, .content h => .cons h .nil
  | _, _, .block ⟨_, _, _, _, _, _, _⟩ hp hi =>
      List.rel_append (Section.Alike.contents hp) (Section.Alike.contents hi)
  | _, _, .decoratorBlock ⟨_, _, _, _, _, _, _⟩ hp hi =>
      List.rel_append (Section.Alike.contents hp) (Section.Alike.contents hi)
  | _, _, .inclusionBlock ⟨_, _, _, _, _⟩ hp => Program.Alike.contents hp

theorem Body.Alike.contents : ∀ {body body' : List Statement}, Body.Alike R body body' →
    List.Forall₂ R (Body.contents body) (Body.contents body')
  | _, _, .nil => .nil
  | _, _, .cons hs hb => List.rel_append (Statement.Alike.contents hs) (Body.Alike.contents hb)

theorem Section.Alike.contents : ∀ {p q : Option Program}, Section.Alike R p q →
    List.Forall₂ R (Section.contents p) (Section.contents q)
  | _, _, .none => .nil
  | _, _, .some h => Program.Alike.contents h

theorem Program.Alike.contents : ∀ {p q : Program}, Program.Alike R p q →
    List.Forall₂ R p.contents q.contents
  | _, _, .mk ⟨_, _, _, _⟩ h => Body.Alike.contents h

end

end

/-- The whole text of a tree without its tags. -/
def Program.text (p : Program) : Text := p.contents.flatMap Content.value

end Stache
