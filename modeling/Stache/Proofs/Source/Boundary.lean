import Stache.Proofs.Source.Order
import Stache.Report

/-!
# Offsets between characters

A byte offset between two characters, at the start or at the end of a text has a line
and a column, and leads back from them to itself (`offset_position`).  So a span with
such ends is what its location is shown as (`range?_location`).

One more character in front of a text moves the places in it down by a line, or those on
its first line by a column to the right.  `position` and `offset` agree on this, which is
what the induction over the characters in front of the offset needs.
-/

namespace Stache

namespace Position

/-- The place behind some characters. -/
def along (p : Position) (u : Text) : Position := u.foldl next p

/-- The same column a line further down. -/
def down (p : Position) : Position := ⟨p.line + 1, p.column⟩

/-- The next column, if the place is on the first line. -/
def right (p : Position) : Position := ⟨p.line, if p.line = 1 then p.column + 1 else p.column⟩

variable {p : Position}

theorem next_down (c : Char) : p.down.next c = (p.next c).down := by
  unfold next
  split <;> rfl

theorem next_right (h : 1 ≤ p.line) (c : Char) : p.right.next c = (p.next c).right := by
  unfold next right
  split
  · rw [if_neg (Nat.succ_ne_succ_iff.mpr (Nat.ne_of_gt h))]
  · split <;> rfl

theorem one_le_next (h : 1 ≤ p.line) (c : Char) : 1 ≤ (p.next c).line := by
  unfold next
  split
  · exact Nat.le_succ_of_le h
  · exact h

theorem one_le_along (h : 1 ≤ p.line) (u : Text) : 1 ≤ (p.along u).line := by
  induction u generalizing p with
  | nil => exact h
  | cons c u ih => exact ih (one_le_next h c)

theorem along_down (u : Text) : p.down.along u = (p.along u).down := by
  induction u generalizing p with
  | nil => rfl
  | cons c u ih =>
      rw [along, List.foldl_cons, next_down]
      exact ih

theorem along_right (h : 1 ≤ p.line) (u : Text) : p.right.along u = (p.along u).right := by
  induction u generalizing p with
  | nil => rfl
  | cons c u ih =>
      rw [along, List.foldl_cons, next_right h]
      exact ih (one_le_next h c)

end Position

namespace Source

theorem positionFrom_byteLength (p : Position) (u v : Text) :
    positionFrom p (u ++ v) u.byteLength = p.along u := by
  induction u generalizing p with
  | nil =>
      cases v with
      | nil => rfl
      | cons c v => exact if_pos c.utf8Size_pos
  | cons c u ih =>
      rw [List.cons_append, positionFrom, Text.byteLength_cons, if_neg (by omega),
        Nat.add_sub_cancel_left]
      exact ih (p.next c)

/-! ## Lines with a character in front -/

theorem offset_succ (t : Text) (n column : Nat) :
    offset t ⟨n + 1, column⟩ =
      match (lines t)[n]? with
      | some l =>
          if column ≤ l.length then
            some (Text.byteLength ((lines t).take n).flatten + Text.byteLength (l.take column))
          else none
      | none => none := if_neg (Nat.succ_ne_zero n)

/-- A line feed is a line of its own in front of the others. -/
theorem offset_lineFeed (t : Text) {p : Position} (h : 1 ≤ p.line) :
    offset ('\n' :: t) p.down = (offset t p).map ('\n'.utf8Size + ·) := by
  obtain ⟨line, column⟩ := p
  obtain ⟨n, rfl⟩ : ∃ n, line = n + 1 := Nat.exists_eq_succ_of_ne_zero (Nat.ne_of_gt h)
  have hlines : lines ('\n' :: t) = ['\n'] :: lines t := if_pos rfl
  rw [Position.down, offset_succ, offset_succ, hlines, List.getElem?_cons_succ,
    List.take_succ_cons, List.flatten_cons, List.singleton_append, Text.byteLength_cons]
  split
  · split
    · exact congrArg some (Nat.add_assoc _ _ _)
    · rfl
  · rfl

/-- Another character makes the first line longer. -/
theorem offset_cons {c : Char} (hc : c ≠ '\n') (t : Text) {p : Position} (h : 1 ≤ p.line) :
    offset (c :: t) p.right = (offset t p).map (c.utf8Size + ·) := by
  obtain ⟨l, ls, hlines⟩ := List.exists_cons_of_ne_nil (lines_ne_nil t)
  have hcons : lines (c :: t) = (c :: l) :: ls := by rw [lines, if_neg hc, hlines]
  obtain ⟨line, column⟩ := p
  obtain ⟨n, rfl⟩ : ∃ n, line = n + 1 := Nat.exists_eq_succ_of_ne_zero (Nat.ne_of_gt h)
  rw [Position.right, offset_succ, offset_succ, hlines, hcons]
  cases n with
  | zero =>
      simp only [Nat.zero_add, if_true, List.take_zero, List.getElem?_cons_zero, List.flatten_nil,
        Text.byteLength_nil, List.length_cons, Nat.add_le_add_iff_right, List.take_succ_cons,
        Text.byteLength_cons]
      split <;> rfl
  | succ n =>
      have hline : n + 1 + 1 ≠ 1 := by omega
      simp only [hline, if_false, List.getElem?_cons_succ, List.take_succ_cons,
        List.flatten_cons, List.cons_append, Text.byteLength_cons]
      split
      · split
        · exact congrArg some (Nat.add_assoc _ _ _)
        · rfl
      · rfl

/-! ## There and back -/

theorem offset_along (u v : Text) :
    offset (u ++ v) (Position.origin.along u) = some u.byteLength := by
  induction u with
  | nil =>
      obtain ⟨l, ls, hlines⟩ := List.exists_cons_of_ne_nil (lines_ne_nil v)
      show offset v ⟨1, 0⟩ = some 0
      unfold offset
      rw [hlines]
      rfl
  | cons c u ih =>
      have hline : 1 ≤ (Position.origin.along u).line := Position.one_le_along (Nat.le_refl 1) u
      rw [List.cons_append, Text.byteLength_cons]
      by_cases hc : c = '\n'
      · obtain rfl := hc
        have hdown : Position.origin.along ('\n' :: u) = (Position.origin.along u).down :=
          Position.along_down u
        rw [hdown, offset_lineFeed _ hline, ih]
        rfl
      · have hright : Position.origin.along (c :: u) = (Position.origin.along u).right := by
          rw [← Position.along_right (Nat.le_refl 1), Position.along, List.foldl_cons,
            Position.next, if_neg hc]
          rfl
        rw [hright, offset_cons hc _ hline, ih]
        rfl

/-- The offset lies between two characters of the text, or at an end of it. -/
def Boundary (t : Text) (a : Nat) : Prop := ∃ u v, t = u ++ v ∧ u.byteLength = a

theorem Boundary.le_byteLength {t : Text} {a : Nat} (h : Boundary t a) : a ≤ t.byteLength := by
  obtain ⟨u, v, rfl, rfl⟩ := h
  rw [Text.byteLength_append]
  exact Nat.le_add_right _ _

/-- The span starts and ends between characters of the text. -/
structure Bounded (t : Text) (span : Span) : Prop where
  start : Boundary t span.start
  stop : Boundary t span.stop
  forwards : span.start ≤ span.stop

/-- The place of an offset between characters leads back to the offset. -/
theorem offset_position {t : Text} {a : Nat} (h : Boundary t a) :
    offset t (position t a) = some a := by
  obtain ⟨u, v, rfl, rfl⟩ := h
  rw [position, positionFrom_byteLength]
  exact offset_along u v

end Source

/-- A span between characters is what its location is shown as. -/
theorem Report.range?_location {t : Text} {source : Option String} {span : Span}
    (h : Source.Bounded t span) : range? t (Source.location t source span) = some span := by
  simp only [range?, Source.location, Source.offset_position h.start,
    Source.offset_position h.stop, Option.map_some, Option.getD_some, Nat.max_eq_right h.forwards]

end Stache
