import Stache.Proofs.Grammar.Nodes
import Stache.Proofs.Tree.Structural

/-!
# The statements of all bodies

Every statement of a template is in the body of some program: the template
itself, a section of a block, the body of a raw block, or the program around a
link of an else chain.  In all of these but the last it was read by the grammar
as a statement, so it has its own tokens among those of the template, from its
opening tag to its closing one (`exists_of_mem_body`).

Custom builds of lists and hashes put nothing but expressions into the tree, so
nothing is asked of them here.
-/

namespace Stache

namespace Grammar

variable {g : Grammar} {ls : List Lexeme}

/-- Programs and statements have their parts in their tokens, whatever lists and hashes are
built as. -/
theorem parts_of_structural {n : Node} (hn : n.Structural) (h : g.WritesNode ls n) :
    g.WritesParts ls n := by
  cases h with
  | statement h => exact parts_of_writesStatement h
  | link h => exact parts_of_writesLink h
  | program h => exact .ordered (row_of_writesStatements h) rfl
  | contents h => exact .ordered (row_of_writesContents h) rfl
  | chained h => exact .ordered (.one (.link h)) rfl
  | expr | hash | hashPair => exact absurd hn id

/-- The tokens of a template have those of each program and each statement in it somewhere. -/
theorem exists_of_structural {n root : Node} (hroot : g.WritesNode ls root) (hn : n.Within root)
    (hstructural : n.Structural) :
    ∃ before own after, ls = before ++ (own ++ after) ∧ g.WritesNode own n := by
  induction hn with
  | refl => exact ⟨[], ls, [], (List.append_nil ls).symm, hroot⟩
  | @part n m _ hn _ ih =>
      have hm := Node.structural_of_mem_parts hn hstructural
      obtain ⟨before, own, after, rfl, hown⟩ := ih hroot hm
      obtain ⟨before', own', after', rfl, hown'⟩ :=
        exists_of_mem_parts (parts_of_structural hm hown) hn
      exact ⟨before ++ before', own', after' ++ after, by simp only [List.append_assoc], hown'⟩

theorem exists_of_mem_statements {body : List Statement} {s : Statement}
    (h : g.WritesStatements ls body) (hs : s ∈ body) :
    ∃ before own after, ls = before ++ (own ++ after) ∧ g.WritesStatement own s := by
  induction body generalizing ls with
  | nil => cases hs
  | cons t body ih =>
      cases h with
      | @cons own rest _ _ ht h =>
          rcases List.mem_cons.mp hs with rfl | hs
          · exact ⟨[], own, rest, rfl, ht⟩
          · obtain ⟨before, own', after, rfl, hown⟩ := ih h hs
            exact ⟨own ++ before, own', after, (List.append_assoc ..).symm, hown⟩

theorem exists_of_mem_contents {body : List Statement} {s : Statement}
    (h : g.WritesContents ls body) (hs : s ∈ body) :
    ∃ before own after, ls = before ++ (own ++ after) ∧ g.WritesStatement own s := by
  induction h with
  | nil => cases hs
  | @cons text span ls more _ ih =>
      rcases List.mem_cons.mp hs with rfl | hs
      · exact ⟨[], [⟨.content text, span⟩], ls, rfl, .content⟩
      · obtain ⟨before, own, after, rfl, hown⟩ := ih hs
        exact ⟨⟨.content text, span⟩ :: before, own, after, rfl, hown⟩

/-- A statement of a program that wraps no link has its tokens among those of
the program. -/
theorem exists_of_mem_program {q : Program} {s : Statement} (h : g.WritesNode ls (.program q))
    (hchained : q.chained = false) (hs : s ∈ q.body) :
    ∃ before own after, ls = before ++ (own ++ after) ∧ g.WritesStatement own s := by
  generalize hn : Node.program q = n at h
  cases h with
  | program h =>
      cases hn
      exact exists_of_mem_statements h hs
  | contents h =>
      cases hn
      exact exists_of_mem_contents h hs
  | chained =>
      cases hn
      cases hchained
  | expr | hash | hashPair | statement | link => cases hn

end Grammar

/-- Every statement of an accepted template that is no link of an else chain has
its tokens among those of the template. -/
theorem exists_of_mem_body {o : Options} {text : Text} {p q : Program} {s : Statement}
    (h : parseRaw o text = .ok p) (hq : (Node.program q).Within (.program p))
    (hchained : q.chained = false) (hs : s ∈ q.body) :
    ∃ before own after, (tokenize o.brackets.isList text).lexemes = before ++ (own ++ after) ∧
      (o.grammar text).WritesStatement own s := by
  obtain ⟨before, own, after, hls, hown⟩ := Grammar.exists_of_structural
    (Grammar.writesNode_of_writesProgram (writesProgram_of_parseRaw h)) hq trivial
  obtain ⟨before', own', after', rfl, hs⟩ := Grammar.exists_of_mem_program hown hchained hs
  exact ⟨before ++ before', own', after' ++ after, by simp only [hls, List.append_assoc], hs⟩

end Stache
