import Stache.Proofs.Source.Boundary
import Stache.Proofs.Token.Closes

/-!
# The place of a fault

A fault of the scanner covers the character that starts no token, or all that is left from
the start of what has no end.  Either way its span starts and ends between characters of
the text (`boundary_of_fault`): the scanner always stands between characters, and the
opener of a raw block lies behind it.
-/

namespace Stache

open Source

namespace Scanner

variable {square : Bool} {s s' : State} {cs rest text : Text} {ls : List Lexeme} {f : Fault}

/-- The scanner has the rest of the text in front of it, and the last opener of a raw block
starts behind it. -/
structure Inside (text : Text) (s : State) (cs : Text) : Prop where
  rest : ∃ u, text = u ++ cs ∧ u.byteLength = s.offset
  rawStart : Boundary text s.rawStart
  opened : s.rawStart ≤ s.offset

/-- The places in the rest are places in the text. -/
theorem Inside.boundary (h : Inside text s cs) {w v : Text} (hcs : cs = w ++ v) :
    Boundary text (s.offset + w.byteLength) := by
  obtain ⟨u, rfl, hu⟩ := h.rest
  exact ⟨u ++ w, v, by rw [hcs, List.append_assoc], by rw [Text.byteLength_append, hu]⟩

theorem Inside.stop (h : Inside text s cs) : Boundary text (s.offset + cs.byteLength) :=
  h.boundary (List.append_nil cs).symm

theorem rawStart_textStep (h : textStep s cs = .moved ls s' rest) : s'.rawStart = s.rawStart := by
  cases textStep_eq_moved_iff.mp h <;> rfl

/-- A move keeps the last opener of a raw block, or reads the next one. -/
theorem rawStart_of_step (h : step square s cs = .moved ls s' rest) :
    s'.rawStart = s.rawStart ∨ ∃ w v, cs = w ++ v ∧ s'.rawStart = s.offset + w.byteLength ∧
      s'.rawStart ≤ s'.offset := by
  rw [step] at h
  split at h
  · exact .inl (rawStart_textStep h)
  · obtain ⟨token, width, -, -, -, rfl, -⟩ := tagStep_eq_moved_iff.mp h
    by_cases htoken : token = .rawOpener
    · refine .inr ⟨_, _, List.takeWhile_append_dropWhile.symm, if_pos htoken, ?_⟩
      exact Nat.le_trans (Nat.le_of_eq (if_pos htoken)) (Nat.le_add_right _ _)
    · exact .inl (if_neg htoken)
  · obtain ⟨width, name, -, -, rfl, -⟩ := rawStep_eq_moved_iff.mp h
    exact .inl rfl

theorem Inside.step (h : Inside text s cs) (hstep : step square s cs = .moved ls s' rest) :
    Inside text s' rest := by
  obtain ⟨w, hcs, hoffset⟩ := exists_of_step hstep
  obtain ⟨u, htext, hu⟩ := h.rest
  have hrest : ∃ u, text = u ++ rest ∧ u.byteLength = s'.offset :=
    ⟨u ++ w, by rw [htext, hcs, List.append_assoc],
      by rw [Text.byteLength_append, hu, hoffset]⟩
  rcases rawStart_of_step hstep with hraw | ⟨v, v', hcs', hraw, hopened⟩
  · exact ⟨hrest, hraw ▸ h.rawStart,
      hraw ▸ Nat.le_trans h.opened (hoffset ▸ Nat.le_add_right _ _)⟩
  · exact ⟨hrest, hraw ▸ h.boundary hcs', hopened⟩

theorem Inside.fault (h : Inside text s cs) (hstep : Scanner.step square s cs = .failed f) :
    Bounded text f.span := by
  have hspace : cs.takeWhile isTagSpace ++ cs.dropWhile isTagSpace = cs :=
    List.takeWhile_append_dropWhile
  rw [Scanner.step] at hstep
  split at hstep
  · exact absurd hstep textStep_ne_failed
  · rw [tagStep] at hstep
    dsimp only at hstep
    split at hstep
    · cases hstep
    · next c r hbody =>
        rw [hbody] at hspace
        have hstart := h.boundary hspace.symm
        have hstop := h.stop
        rw [← hspace, Text.byteLength_append, ← Nat.add_assoc] at hstop
        split at hstep <;> cases hstep
        · refine ⟨hstart, ?_, Nat.le_add_right _ _⟩
          have hnext := h.boundary (w := cs.takeWhile isTagSpace ++ [c]) (v := r)
            (by rw [List.append_assoc]; exact hspace.symm)
          rw [Text.byteLength_append, ← Nat.add_assoc] at hnext
          exact hnext
        · exact ⟨hstart, hstop, Nat.le_add_right _ _⟩
        · exact ⟨hstart, hstop, Nat.le_add_right _ _⟩
  · rw [rawStep] at hstep
    split at hstep <;> cases hstep
    exact ⟨h.rawStart, h.stop, Nat.le_trans h.opened (Nat.le_add_right _ _)⟩

theorem Inside.scan {s : State} {cs : Text} (h : Inside text s cs)
    (hfault : (scan square s cs).fault = some f) : Bounded text f.span := by
  rw [Scanner.scan] at hfault
  split at hfault
  · cases hfault
  · next hstep =>
      cases hfault
      exact h.fault hstep
  · next hstep => exact (h.step hstep).scan hfault
termination_by measure s cs
decreasing_by exact step_measure ‹_›

end Scanner

/-- A fault starts and ends between characters of the text. -/
theorem boundary_of_fault {square : Bool} {text : Text} {f : Fault}
    (h : (tokenize square text).fault = some f) : Bounded text f.span := by
  have hinside : Scanner.Inside text .initial text :=
    ⟨⟨[], rfl, rfl⟩, ⟨[], text, rfl, rfl⟩, Nat.le_refl 0⟩
  exact hinside.scan h

end Stache
