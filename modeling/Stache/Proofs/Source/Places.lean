import Stache.Proofs.Source.Boundary

/-!
# Offsets and places correspond

The offsets between the characters of a text and the places in it correspond, in order.
A later offset has a later place (`position_lt_position`), and every place that the text
has is that of the offset it leads to (`position_of_offset`).

One place has two names.  A line includes the line feed that ends it, so the column past
this line feed is the start of the next line.

`Lined` holds what is known of the lines of a text: every line but the last ends with its
only line feed.  The induction is over them, since a place behind some whole lines does
not depend on what stands in them.
-/

namespace Stache

namespace Position

/-- Places in the order of a text: by line, then by column. -/
instance : LT Position := ⟨fun p q => p.line < q.line ∨ p.line = q.line ∧ p.column < q.column⟩

instance (p q : Position) : Decidable (p < q) :=
  inferInstanceAs (Decidable (p.line < q.line ∨ p.line = q.line ∧ p.column < q.column))

theorem lt_of_le_of_ne {p q : Position} (h : p ≤ q) (hne : p ≠ q) : p < q := by
  obtain ⟨line, column⟩ := p
  obtain ⟨line', column'⟩ := q
  rcases h with hline | ⟨rfl, hcolumn⟩
  · exact .inl hline
  · exact .inr ⟨rfl, Nat.lt_of_le_of_ne hcolumn fun heq => hne (congrArg _ heq)⟩

theorem along_append (p : Position) (u v : Text) : p.along (u ++ v) = (p.along u).along v :=
  List.foldl_append

/-- Text without a line feed stays on its line. -/
theorem along_of_not_mem {u : Text} (h : '\n' ∉ u) (p : Position) :
    p.along u = ⟨p.line, p.column + u.length⟩ := by
  induction u generalizing p with
  | nil => rfl
  | cons c u ih =>
      obtain ⟨hc, hu⟩ := not_or.mp (mt List.mem_cons.mpr h)
      rw [along, List.foldl_cons, ← along, ih hu, next, if_neg (Ne.symm hc), List.length_cons,
        Nat.add_right_comm]
      rfl

/-- A line feed starts the next line. -/
theorem along_lineFeed (p : Position) (u : Text) :
    p.along (u ++ ['\n']) = ⟨(p.along u).line + 1, 0⟩ := along_append p u ['\n']

end Position

namespace Source

/-! ## Lines -/

/-- Lines of a text: every line but the last ends with its only line feed. -/
inductive Lined : List Text → Prop where
  | last {l : Text} (h : '\n' ∉ l) : Lined [l]
  | cons {l : Text} {ls : List Text} (h : '\n' ∉ l) (hls : Lined ls) :
      Lined ((l ++ ['\n']) :: ls)

theorem lined_lines (t : Text) : Lined (lines t) := by
  induction t with
  | nil => exact .last List.not_mem_nil
  | cons c r ih =>
      rw [lines]
      split
      · next hc => exact hc ▸ .cons List.not_mem_nil ih
      · next hc =>
          have hmem {l : Text} (h : '\n' ∉ l) : '\n' ∉ c :: l :=
            List.not_mem_cons_of_ne_of_not_mem (Ne.symm hc) h
          generalize lines r = ls at ih
          cases ih with
          | last h => exact .last (hmem h)
          | cons h hls => exact .cons (hmem h) hls

variable {ls : List Text} {l t : Text} {p : Position} {n a b : Nat}

/-- A line has no line feed, or one at its end. -/
theorem Lined.line (h : Lined ls) (hl : ls[n]? = some l) :
    '\n' ∉ l ∨ ∃ w, '\n' ∉ w ∧ l = w ++ ['\n'] := by
  induction h generalizing n with
  | last h =>
      cases n with
      | zero => exact .inl (Option.some.inj hl ▸ h)
      | succ n => cases hl
  | cons h _ ih =>
      cases n with
      | zero => exact .inr ⟨_, h, (Option.some.inj hl).symm⟩
      | succ n => exact ih hl

/-- Behind a line feed another line stands. -/
theorem Lined.succ_lt {w : Text} (h : Lined ls) (hl : ls[n]? = some (w ++ ['\n'])) :
    n + 1 < ls.length := by
  induction h generalizing n with
  | last h =>
      cases n with
      | zero =>
          obtain rfl := Option.some.inj hl
          exact absurd (List.mem_append_right w List.mem_cons_self) h
      | succ n => cases hl
  | cons _ hls ih =>
      cases n with
      | zero =>
          cases hls <;> exact Nat.succ_lt_succ (Nat.zero_lt_succ _)
      | succ n => exact Nat.succ_lt_succ (ih hl)

/-- Behind some lines the next one starts. -/
theorem Lined.along_take (h : Lined ls) (hn : n < ls.length) (line : Nat) :
    Position.along ⟨line, 0⟩ (ls.take n).flatten = ⟨line + n, 0⟩ := by
  induction h generalizing n line with
  | last =>
      obtain rfl : n = 0 := Nat.lt_one_iff.mp hn
      rfl
  | @cons l ls h _ ih =>
      cases n with
      | zero => rfl
      | succ n =>
          rw [List.take_succ_cons, List.flatten_cons, Position.along_append,
            Position.along_lineFeed, Position.along_of_not_mem h,
            ih (Nat.lt_of_succ_lt_succ hn), Nat.add_right_comm, Nat.add_assoc]

/-- A text is what stands before a line, the line and what stands behind it. -/
theorem split_line (hl : (lines t)[n]? = some l) :
    t = ((lines t).take n).flatten ++ (l ++ ((lines t).drop (n + 1)).flatten) := by
  obtain ⟨hn, rfl⟩ := List.getElem?_eq_some_iff.mp hl
  have hsplit : lines t = (lines t).take n ++ (lines t)[n] :: (lines t).drop (n + 1) := by
    rw [← List.drop_eq_getElem_cons hn, List.take_append_drop]
  calc t = (lines t).flatten := (flatten_lines t).symm
    _ = ((lines t).take n ++ (lines t)[n] :: (lines t).drop (n + 1)).flatten :=
      congrArg List.flatten hsplit
    _ = _ := by rw [List.flatten_append, List.flatten_cons]

/-! ## There and back -/

/-- The place behind the front of a text. -/
theorem position_byteLength {u v : Text} (h : t = u ++ v) :
    position t u.byteLength = Position.origin.along u := by
  rw [h, position, positionFrom_byteLength]

/-- A later offset has a later place. -/
theorem position_lt_position (ha : Boundary t a) (hb : Boundary t b) (h : a < b) :
    position t a < position t b := by
  refine Position.lt_of_le_of_ne (position_le_position t (Nat.le_of_lt h)) fun heq => ?_
  have hoffset := congrArg (offset t) heq
  rw [offset_position ha, offset_position hb] at hoffset
  exact absurd (Option.some.inj hoffset) (Nat.ne_of_lt h)

/-- A place leads to an offset if the text has its line and the line has its column, and the
offset stands behind the lines in front and the characters in front on the line. -/
theorem offset_eq_some_iff : offset t p = some a ↔ 1 ≤ p.line ∧
    ∃ l, (lines t)[p.line - 1]? = some l ∧ p.column ≤ l.length ∧
      a = Text.byteLength (((lines t).take (p.line - 1)).flatten ++ l.take p.column) := by
  obtain ⟨line, column⟩ := p
  cases line with
  | zero => exact ⟨nofun, fun h => absurd h.1 (Nat.not_succ_le_zero 0)⟩
  | succ n =>
      rw [offset_succ]
      dsimp only
      rw [Nat.add_sub_cancel]
      cases hl : (lines t)[n]? with
      | none => exact ⟨nofun, fun ⟨_, l, h, _⟩ => nomatch h⟩
      | some l =>
          dsimp only
          rw [← Text.byteLength_append]
          constructor
          · intro h
            split at h
            · next hcolumn =>
                exact ⟨Nat.le_add_left 1 n, l, rfl, hcolumn, (Option.some.inj h).symm⟩
            · cases h
          · rintro ⟨-, _, ⟨⟩, hcolumn, rfl⟩
            exact if_pos hcolumn

/-- The column is the one past the line feed of its line. -/
def PastLineFeed (t : Text) (p : Position) : Prop :=
  ∃ w, (lines t)[p.line - 1]? = some (w ++ ['\n']) ∧ p.column = w.length + 1

/-- **Every place is that of its offset.**  Only the column past a line feed is a second name for
the start of the next line. -/
theorem position_of_offset (h : offset t p = some a) :
    Boundary t a ∧ (PastLineFeed t p → position t a = ⟨p.line + 1, 0⟩) ∧
      (¬PastLineFeed t p → position t a = p) := by
  obtain ⟨hline, l, hl, hcolumn, rfl⟩ := offset_eq_some_iff.mp h
  have hsplit := split_line hl
  have htext : t = ((lines t).take (p.line - 1)).flatten ++ l.take p.column ++
      (l.drop p.column ++ ((lines t).drop (p.line - 1 + 1)).flatten) := by
    rw [List.append_assoc, ← List.append_assoc (l.take _), List.take_append_drop]
    exact hsplit
  have hn : p.line - 1 < (lines t).length := (List.getElem?_eq_some_iff.mp hl).1
  have hplace : position t (Text.byteLength
      (((lines t).take (p.line - 1)).flatten ++ l.take p.column)) =
        Position.along ⟨p.line, 0⟩ (l.take p.column) := by
    rw [position_byteLength htext, Position.along_append, Position.origin,
      (lined_lines t).along_take hn, Nat.add_sub_cancel' hline]
  refine ⟨⟨_, _, htext, rfl⟩, ?_, fun hpast => ?_⟩
  · rintro ⟨w, hw, hcol⟩
    obtain rfl : l = w ++ ['\n'] := Option.some.inj (hl.symm.trans hw)
    have hfree : '\n' ∉ w := by
      rcases (lined_lines t).line hl with hfree | ⟨w', hfree, heq⟩
      · exact absurd (List.mem_append_right w List.mem_cons_self) hfree
      · exact (List.append_inj' heq rfl).1 ▸ hfree
    rw [hplace, List.take_of_length_le (by simp [hcol]), Position.along_lineFeed,
      Position.along_of_not_mem hfree]
  · have hfree : '\n' ∉ l.take p.column := by
      rcases (lined_lines t).line hl with hfree | ⟨w, hfree, rfl⟩
      · exact fun hmem => hfree (List.mem_of_mem_take hmem)
      · have hne : p.column ≠ w.length + 1 := fun hcol => hpast ⟨w, hl, hcol⟩
        have hle : p.column ≤ w.length := by
          rw [List.length_append] at hcolumn
          exact Nat.le_of_lt_succ (Nat.lt_of_le_of_ne hcolumn hne)
        rw [List.take_append_of_le_length hle]
        exact fun hmem => hfree (List.mem_of_mem_take hmem)
    rw [hplace, Position.along_of_not_mem hfree, List.length_take, Nat.min_eq_left hcolumn,
      Nat.zero_add]

end Source
end Stache
