import Mathlib.Data.List.Pairwise
import Stache.Proofs.Source.Order
import Stache.Tree.Basic

/-!
# The statements of a tree

A tree lists all its statements: those of its body and those of the sections of
blocks, however deep.  A block comes before what stands in it, and its main
section before its else section.  In the listing by location every statement has
its place where it starts in the source, also in a block that is inverted.
-/

namespace Stache

mutual

/-- A statement and those in its sections. -/
def Statement.listed : Statement → List Statement
  | .block ⟨call, main, inverse, opening, middle, closing, loc⟩ =>
      .block ⟨call, main, inverse, opening, middle, closing, loc⟩ ::
        (Section.listed main ++ Section.listed inverse)
  | .decoratorBlock ⟨call, main, inverse, opening, middle, closing, loc⟩ =>
      .decoratorBlock ⟨call, main, inverse, opening, middle, closing, loc⟩ ::
        (Section.listed main ++ Section.listed inverse)
  | .inclusionBlock ⟨call, main, opening, closing, loc⟩ =>
      .inclusionBlock ⟨call, main, opening, closing, loc⟩ :: Program.listed main
  | .mustache node => [.mustache node]
  | .decorator node => [.decorator node]
  | .inclusion node => [.inclusion node]
  | .content node => [.content node]
  | .comment node => [.comment node]

/-- All statements in a list of statements. -/
def Body.listed : List Statement → List Statement
  | [] => []
  | s :: rest => Statement.listed s ++ Body.listed rest

/-- All statements of a section, if it is there. -/
def Section.listed : Option Program → List Statement
  | none => []
  | some p => Program.listed p

/-- All statements of a program. -/
def Program.listed : Program → List Statement
  | ⟨body, _, _, _⟩ => Body.listed body

end

/-- One statement starts no later than another. -/
def Statement.startsBy (s t : Statement) : Bool := decide (s.loc.start ≤ t.loc.start)

/-- All statements of a program in the order of their locations. -/
def Program.byLocation (p : Program) : List Statement := p.listed.mergeSort Statement.startsBy

theorem Program.byLocation_perm (p : Program) : p.byLocation.Perm p.listed :=
  p.listed.mergeSort_perm _

theorem Program.pairwise_byLocation (p : Program) :
    p.byLocation.Pairwise fun s t => s.loc.start ≤ t.loc.start := by
  have htrans (s t u : Statement) (h : s.startsBy t = true) (h' : t.startsBy u = true) :
      s.startsBy u = true :=
    decide_eq_true (Position.le_trans (of_decide_eq_true h) (of_decide_eq_true h'))
  have htotal (s t : Statement) : (s.startsBy t || t.startsBy s) = true :=
    Bool.or_eq_true_iff.mpr
      ((Position.le_total s.loc.start t.loc.start).imp decide_eq_true decide_eq_true)
  exact (List.pairwise_mergeSort htrans htotal p.listed).imp of_decide_eq_true

/-- Statements that start one behind the other are listed by location in no other order. -/
theorem Program.byLocation_eq {p : Program} {ss : List Statement} (hperm : ss.Perm p.listed)
    (horder : ss.Pairwise fun s t => s.loc.start ≤ t.loc.start ∧ s.loc.start ≠ t.loc.start) :
    p.byLocation = ss := by
  have hordered : ss.Pairwise fun s t => s.loc.start ≤ t.loc.start := horder.imp And.left
  refine List.Perm.eq_of_pairwise (fun s t hs ht h h' => ?_) p.pairwise_byLocation hordered
    (p.byLocation_perm.trans hperm.symm)
  have hs' : s ∈ ss := (p.byLocation_perm.trans hperm.symm).mem_iff.mp hs
  refine Classical.byContradiction fun hne => ?_
  have : Std.Symm fun s t : Statement => s.loc.start ≠ t.loc.start := ⟨fun _ _ => Ne.symm⟩
  exact (horder.imp And.right).forall hs' ht hne (Position.le_antisymm h h')

end Stache
