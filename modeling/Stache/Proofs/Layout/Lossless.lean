import Stache.Proofs.Layout.InPlace
import Stache.Proofs.Tree.Contents

/-!
# Whitespace control loses white space only

Whatever the tree, the options and the history of a control, a run of the pass
succeeds.  The tree it leads to differs from the one before in its texts and in
the indents of its partials, and a text differs in the white space it lost at
its ends.
-/

namespace Stache

/-- Texts that lose white space spell the same without it. -/
theorem filter_flatMap_value {cs ds : List Content} (h : List.Forall₂ Content.Loses cs ds) :
    (ds.flatMap Content.value).filter (fun x => !isSpace x) =
      (cs.flatMap Content.value).filter (fun x => !isSpace x) := by
  induction h with
  | nil => rfl
  | cons hc _ ih =>
      rw [List.flatMap_cons, List.flatMap_cons, List.filter_append, List.filter_append,
        hc.filter_value, ih]

/-- The same for the texts of whole trees. -/
theorem Program.Alike.filter_text {p q : Program} (h : Program.Alike Content.Loses p q) :
    q.text.filter (fun x => !isSpace x) = p.text.filter (fun x => !isSpace x) :=
  filter_flatMap_value h.contents

namespace Layout

/-- The pass changes a tree by white space at the ends of texts and by indents
only. -/
theorem Control.normalize_alike (c : Control) (p : Program) :
    Program.Alike Content.Loses p (c.normalize p).1 :=
  Program.Alike.mono (fun _ _ => Content.TrimsTo.loses)
    (trimsTo_program c.ignoreStandalone (!c.rootSeen) p)

/-- A run of the pass always succeeds.  It keeps everything but the values of
texts, their marks and the indents of partials, a text loses white space at its
ends and remembers at which, and no other character goes. -/
theorem Control.edit_lossless (c : Control) (p : Program) :
    ∃ q visits, c.edit p = ⟨.ok (q, { c with rootSeen := true }), visits, []⟩ ∧
      Program.Alike Content.Loses p q ∧
      q.text.filter (fun x => !isSpace x) = p.text.filter (fun x => !isSpace x) := by
  obtain ⟨visits, hrun⟩ := c.edit_eq p
  have halike := c.normalize_alike p
  exact ⟨(c.normalize p).1, visits, hrun, halike, halike.filter_text⟩

end Layout
end Stache
