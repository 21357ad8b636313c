import Stache.Proofs.Tree.Alike
import Stache.Proofs.Tree.Parts

/-!
# Programs and statements

Only programs and statements have programs and statements for parts.  Trees that
differ in their texts have them in the same places.
-/

namespace Stache

/-- A program or a statement. -/
def Node.Structural : Node → Prop
  | .program _ | .statement _ => True
  | _ => False

theorem Call.not_structural_of_mem_nodes {c : Call} {n : Node} (hn : n ∈ c.nodes) :
    ¬ n.Structural := by
  simp only [nodes, List.mem_cons, List.mem_append, List.mem_map] at hn
  rcases hn with rfl | ⟨e, -, rfl⟩ | ⟨h, -, rfl⟩ <;> exact id

/-- Other nodes have no sections. -/
theorem Node.parts_of_not_structural {m : Node} (h : ¬ m.Structural) : m.parts = m.ordered := by
  cases m with
  | program | statement => exact absurd trivial h
  | expr | hash | hashPair => exact List.append_nil _

/-- Programs and statements are parts of such only. -/
theorem Node.structural_of_mem_parts {n m : Node} (hn : n ∈ m.parts) (h : n.Structural) :
    m.Structural := by
  refine Classical.byContradiction fun hm => ?_
  rw [parts_of_not_structural hm] at hn
  cases m with
  | program | statement => exact hm trivial
  | expr e =>
      cases e with
      | path p =>
          replace hn : n ∈ p.headNodes := hn
          unfold Path.headNodes at hn
          split at hn
          · rw [List.mem_singleton.mp hn] at h
            exact h
          · cases hn
      | sub node => exact absurd h (Call.not_structural_of_mem_nodes hn)
      | array items _ =>
          obtain ⟨e, -, rfl⟩ := List.mem_map.mp hn
          exact h
      | hash pairs _ =>
          obtain ⟨pair, -, rfl⟩ := List.mem_map.mp hn
          exact h
      | _ => cases hn
  | hash node =>
      obtain ⟨pair, -, rfl⟩ := List.mem_map.mp hn
      exact h
  | hashPair pair =>
      rw [List.mem_singleton.mp hn] at h
      exact h

/-! ## Alike trees -/

/-- Programs or statements that differ in their texts. -/
inductive Node.Alike (R : Content → Content → Prop) : Node → Node → Prop where
  | program {p q : Program} (h : p.Alike R q) : Node.Alike R (.program p) (.program q)
  | statement {s t : Statement} (h : s.Alike R t) : Node.Alike R (.statement s) (.statement t)

section

variable {R : Content → Content → Prop}

theorem Body.Alike.exists_of_mem {body body' : List Statement} {t : Statement}
    (h : Body.Alike R body body') (ht : t ∈ body') : ∃ s ∈ body, s.Alike R t := by
  induction body generalizing body' with
  | nil =>
      cases h with
      | nil => cases ht
  | cons s body ih =>
      cases h with
      | cons hs hb =>
          rcases List.mem_cons.mp ht with rfl | ht
          · exact ⟨s, List.mem_cons_self, hs⟩
          · obtain ⟨u, hu, halike⟩ := ih hb ht
            exact ⟨u, List.mem_cons_of_mem s hu, halike⟩

theorem Section.Alike.exists_of_mem {p q : Option Program} {r : Program} (h : Section.Alike R p q)
    (hr : r ∈ q.toList) : ∃ r' ∈ p.toList, r'.Alike R r := by
  cases h with
  | none => cases hr
  | @some p q h =>
      obtain rfl : r = q := List.mem_singleton.mp hr
      exact ⟨p, List.mem_singleton_self p, h⟩

/-- The sections of alike statements are alike. -/
theorem Statement.Alike.exists_of_mem_sections {s t : Statement} {q : Program} (h : s.Alike R t)
    (hq : q ∈ (Node.statement t).sections) : ∃ p ∈ (Node.statement s).sections, p.Alike R q := by
  cases h with
  | block node hp hi | decoratorBlock node hp hi =>
      rcases List.mem_append.mp hq with hq | hq
      · obtain ⟨p, hp, halike⟩ := hp.exists_of_mem hq
        exact ⟨p, List.mem_append_left _ hp, halike⟩
      · obtain ⟨p, hp, halike⟩ := hi.exists_of_mem hq
        exact ⟨p, List.mem_append_right _ hp, halike⟩
  | inclusionBlock node hp =>
      obtain rfl := List.mem_singleton.mp hq
      exact ⟨node.program, List.mem_singleton_self _, hp⟩
  | mustache | decorator | comment | content | inclusion => cases hq

theorem Statement.not_structural_of_mem_ordered {t : Statement} {n : Node}
    (hn : n ∈ (Node.statement t).ordered) : ¬ n.Structural := by
  cases t with
  | content | comment => cases hn
  | _ => exact Call.not_structural_of_mem_nodes hn

/-- The programs and statements among the parts of a node have their like among
those of an alike node. -/
theorem Node.Alike.exists_of_mem_parts {m m' n' : Node} (h : Node.Alike R m m')
    (hn : n' ∈ m'.parts) (hstructural : n'.Structural) : ∃ n ∈ m.parts, Node.Alike R n n' := by
  cases h with
  | @program p q h =>
      cases h with
      | mk _ hb =>
          rcases List.mem_append.mp hn with hn | hn
          · obtain ⟨t, ht, rfl⟩ := List.mem_map.mp hn
            obtain ⟨s, hs, halike⟩ := hb.exists_of_mem ht
            exact ⟨.statement s, List.mem_append_left _ (List.mem_map_of_mem hs), .statement halike⟩
          · cases hn
  | @statement s t h =>
      rcases List.mem_append.mp hn with hn | hn
      · exact absurd hstructural (Statement.not_structural_of_mem_ordered hn)
      · obtain ⟨q, hq, rfl⟩ := List.mem_map.mp hn
        obtain ⟨p, hp, halike⟩ := h.exists_of_mem_sections hq
        exact ⟨.program p, List.mem_append_right _ (List.mem_map_of_mem hp), .program halike⟩

/-- The programs and statements in a tree have their like in an alike tree. -/
theorem Node.Within.exists_alike {n' root root' : Node} (hn : n'.Within root')
    (hstructural : n'.Structural) (hroot : Node.Alike R root root') :
    ∃ n : Node, n.Within root ∧ Node.Alike R n n' := by
  induction hn with
  | refl => exact ⟨root, .refl, hroot⟩
  | @part n' m' _ hn _ ih =>
      obtain ⟨m, hm, halike⟩ := ih (structural_of_mem_parts hn hstructural) hroot
      obtain ⟨n, hn, halike'⟩ := halike.exists_of_mem_parts hn hstructural
      exact ⟨n, .part hn hm, halike'⟩

end

end Stache
