import Stache.Source.Lines

/-!
# The order of places

Places in a source are ordered by line and then by column.  A byte offset that is
not smaller has a place that is not before (`position_le_position`), so what is
known of the offsets of tokens is known of the places of nodes.
-/

namespace Stache

namespace Position

instance : LE Position := ⟨fun p q => p.line < q.line ∨ p.line = q.line ∧ p.column ≤ q.column⟩

instance (p q : Position) : Decidable (p ≤ q) :=
  inferInstanceAs (Decidable (p.line < q.line ∨ p.line = q.line ∧ p.column ≤ q.column))

theorem le_refl (p : Position) : p ≤ p := .inr ⟨rfl, Nat.le_refl _⟩

theorem le_trans {p q r : Position} (h : p ≤ q) (h' : q ≤ r) : p ≤ r := by
  rcases h with hline | ⟨hline, hcolumn⟩ <;> rcases h' with hline' | ⟨hline', hcolumn'⟩
  · exact .inl (Nat.lt_trans hline hline')
  · exact .inl (hline' ▸ hline)
  · exact .inl (hline ▸ hline')
  · exact .inr ⟨hline.trans hline', Nat.le_trans hcolumn hcolumn'⟩

theorem le_antisymm {p q : Position} (h : p ≤ q) (h' : q ≤ p) : p = q := by
  obtain ⟨line, column⟩ := p
  obtain ⟨line', column'⟩ := q
  rcases h with h | ⟨rfl, hcolumn⟩ <;> rcases h' with h' | ⟨hline, hcolumn'⟩
  · exact absurd h' (Nat.lt_asymm h)
  · exact absurd hline (Nat.ne_of_gt h)
  · exact absurd h' (Nat.lt_irrefl _)
  · exact congrArg _ (Nat.le_antisymm hcolumn hcolumn')

theorem le_total (p q : Position) : p ≤ q ∨ q ≤ p := by
  rcases Nat.lt_trichotomy p.line q.line with h | h | h
  · exact .inl (.inl h)
  · exact (Nat.le_total p.column q.column).imp (fun hc => .inr ⟨h, hc⟩) (fun hc => .inr ⟨h.symm, hc⟩)
  · exact .inr (.inl h)

theorem le_next (p : Position) (c : Char) : p ≤ p.next c := by
  unfold next
  split
  · exact .inl (Nat.lt_succ_self _)
  · exact .inr ⟨rfl, Nat.le_succ _⟩

end Position

namespace Source

theorem le_positionFrom (p : Position) (t : Text) (offset : Nat) :
    p ≤ positionFrom p t offset := by
  induction t generalizing p offset with
  | nil => exact p.le_refl
  | cons c r ih =>
      rw [positionFrom]
      split
      · exact p.le_refl
      · exact Position.le_trans (p.le_next c) (ih _ _)

/-- A larger offset is not before a smaller one. -/
theorem position_le_position (t : Text) {a b : Nat} (h : a ≤ b) : position t a ≤ position t b := by
  unfold position
  generalize Position.origin = p
  induction t generalizing p a b with
  | nil => exact p.le_refl
  | cons c r ih =>
      rw [positionFrom, positionFrom]
      split
      · split
        · exact p.le_refl
        · exact Position.le_trans (p.le_next c) (le_positionFrom _ _ _)
      · next ha =>
          rw [if_neg fun hb => ha (Nat.lt_of_le_of_lt h hb)]
          exact ih (Nat.sub_le_sub_right h _) _

/-- A place in the front of a text depends on nothing behind it. -/
theorem position_append {s : Text} (t : Text) {a : Nat} (h : a ≤ s.byteLength) :
    position (s ++ t) a = position s a := by
  unfold position
  generalize Position.origin = p
  induction s generalizing p a with
  | nil =>
      obtain rfl : a = 0 := Nat.le_zero.mp h
      cases t with
      | nil => rfl
      | cons c t => exact if_pos c.utf8Size_pos
  | cons c s ih =>
      rw [Text.byteLength_cons] at h
      rw [List.cons_append, positionFrom, positionFrom]
      split
      · rfl
      · exact ih (Nat.sub_le_of_le_add (Nat.add_comm _ _ ▸ h)) _

theorem extent_append {s : Text} (t : Text) {a b : Nat} (ha : a ≤ s.byteLength)
    (hb : b ≤ s.byteLength) : extent (s ++ t) ⟨a, b⟩ = extent s ⟨a, b⟩ := by
  unfold extent
  rw [position_append t ha, position_append t hb]

end Source

/-! ## Slices -/

namespace Text

theorem eq_nil_of_byteLength {t : Text} (h : t.byteLength = 0) : t = [] := by
  cases t with
  | nil => rfl
  | cons c r =>
      rw [byteLength_cons] at h
      exact absurd h (Nat.ne_of_gt (Nat.add_pos_left c.utf8Size_pos _))

theorem slice_zero (t : Text) (a : Nat) : slice t a 0 = [] := by
  induction t generalizing a with
  | nil => rfl
  | cons c r ih =>
      rw [slice, Nat.zero_sub]
      simp only [ih, Nat.lt_irrefl, decide_false, Bool.and_false, Bool.false_eq_true, if_false]

theorem slice_zero_zero (t : Text) : slice t 0 0 = [] := slice_zero t 0

/-- A slice of the front of a text depends on nothing behind it. -/
theorem slice_of_le_byteLength {s : Text} (t : Text) {a b : Nat} (h : b ≤ s.byteLength) :
    slice (s ++ t) a b = slice s a b := by
  induction s generalizing a b with
  | nil =>
      obtain rfl : b = 0 := Nat.le_zero.mp h
      exact slice_zero t a
  | cons c s ih =>
      rw [byteLength_cons] at h
      rw [List.cons_append, slice, slice, ih (Nat.sub_le_of_le_add (Nat.add_comm _ _ ▸ h))]

/-- A slice of the back of a text depends on nothing in front of it. -/
theorem slice_behind (u t : Text) (a b : Nat) :
    slice (u ++ t) (u.byteLength + a) (u.byteLength + b) = slice t a b := by
  induction u generalizing a b with
  | nil => rw [byteLength_nil, Nat.zero_add, Nat.zero_add, List.nil_append]
  | cons c u ih =>
      have hne : c.utf8Size + (byteLength u + a) ≠ 0 :=
        Nat.ne_of_gt (Nat.add_pos_left c.utf8Size_pos _)
      rw [List.cons_append, byteLength_cons, Nat.add_assoc, Nat.add_assoc, slice,
        Nat.add_sub_cancel_left, Nat.add_sub_cancel_left]
      simp only [ih, hne, decide_false, Bool.false_and, Bool.false_eq_true, if_false]

theorem slice_zero_append (w v : Text) : slice (w ++ v) 0 w.byteLength = w := by
  induction w with
  | nil => exact slice_zero_zero v
  | cons c w ih =>
      rw [List.cons_append, byteLength_cons, slice, Nat.zero_sub, Nat.add_sub_cancel_left]
      simp only [ih, decide_true, Bool.true_and, decide_eq_true_eq]
      rw [if_pos (Nat.add_pos_left c.utf8Size_pos _)]

/-- What stands between two offsets. -/
theorem slice_append (u w v : Text) :
    slice (u ++ (w ++ v)) u.byteLength (byteLength (u ++ w)) = w := by
  induction u with
  | nil => exact slice_zero_append w v
  | cons c u ih =>
      have hne : c.utf8Size + byteLength u ≠ 0 :=
        Nat.ne_of_gt (Nat.add_pos_left c.utf8Size_pos _)
      rw [List.cons_append, List.cons_append, byteLength_cons, byteLength_cons, slice,
        Nat.add_sub_cancel_left, Nat.add_sub_cancel_left]
      simp only [ih, hne, decide_false, Bool.false_and, Bool.false_eq_true, if_false]

/-- Of two cuts of a text the one that takes fewer bytes comes first. -/
theorem exists_of_append_eq_append {u r w v : Text} (h : u ++ r = w ++ v)
    (hle : u.byteLength ≤ w.byteLength) : ∃ m, w = u ++ m ∧ r = m ++ v := by
  rcases List.append_eq_append_iff.mp h with hm | ⟨m, rfl, rfl⟩
  · exact hm
  · rw [byteLength_append] at hle
    obtain rfl : m = [] := eq_nil_of_byteLength (by omega)
    exact ⟨[], by rw [List.append_nil, List.append_nil], rfl⟩

/-- Two cuts of a text leave a slice between them. -/
theorem exists_slice {text u r w v : Text} (h : text = u ++ r) (h' : text = w ++ v)
    (hle : u.byteLength ≤ w.byteLength) :
    ∃ m, text = u ++ (m ++ v) ∧ w = u ++ m ∧ slice text u.byteLength w.byteLength = m := by
  obtain ⟨m, rfl, -⟩ := exists_of_append_eq_append (h.symm.trans h') hle
  rw [List.append_assoc] at h'
  exact ⟨m, h', rfl, h' ▸ slice_append u m v⟩

end Text

end Stache
