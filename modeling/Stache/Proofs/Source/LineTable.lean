import Stache.Proofs.Source.Places
import Stache.Source.LineTable

/-!
# Places looked up in a table

The table of a text finds the places and the offsets that counting through the text finds
(`position_ofText`, `offset_ofText`).  Bisection keeps in view an entry that is not past
the offset, with nothing but larger entries behind the part of the table that is left.
So it ends at the start of the line that holds the offset.

The table is an order isomorphism between the offsets between characters and the places
of the text, but for the second name that the start of a line has (`orderIso_ofText`).
-/

namespace Stache

/-! ## Bisection -/

namespace Ascending

variable {xs : Array Nat} {x y z i j base size : Nat}

/-- The entry at `i` is the last one that is at most `x`. -/
structure LastUpTo (xs : Array Nat) (x i : Nat) : Prop where
  entry : ∃ y, xs[i]? = some y ∧ y ≤ x
  behind : ∀ j z, i < j → xs[j]? = some z → x < z

theorem lt_of_lt (hs : xs.toList.Pairwise (· < ·)) (hij : i < j) (hi : xs[i]? = some y)
    (hj : xs[j]? = some z) : y < z := by
  obtain ⟨hisize, rfl⟩ := Array.getElem?_eq_some_iff.mp hi
  obtain ⟨hjsize, rfl⟩ := Array.getElem?_eq_some_iff.mp hj
  exact List.pairwise_iff_getElem.mp hs i j hisize hjsize hij

/-- Bisection finds the entry in the part of the table that is left. -/
theorem lastUpTo_bisect (hs : xs.toList.Pairwise (· < ·)) (h : base + size ≤ xs.size)
    (hbase : ∃ y, xs[base]? = some y ∧ y ≤ x)
    (hbehind : ∀ j z, base + size ≤ j → xs[j]? = some z → x < z) :
    LastUpTo xs x (bisect xs x base size h) := by
  fun_induction bisect xs x base size h with
  | case1 base size h hsize hmiddle hlt ih =>
      refine ih hbase fun j z hj hz => ?_
      rcases Nat.lt_or_eq_of_le (Nat.le_trans (by omega : base + size / 2 ≤ _) hj) with hj | rfl
      · exact Nat.lt_trans hlt (lt_of_lt hs hj (Array.getElem?_eq_getElem hmiddle) hz)
      · rw [Array.getElem?_eq_getElem hmiddle] at hz
        exact Option.some.inj hz ▸ hlt
  | case2 base size h hsize hmiddle hle ih =>
      refine ih ⟨_, Array.getElem?_eq_getElem hmiddle, Nat.le_of_not_lt hle⟩ fun j z hj hz => ?_
      exact hbehind j z (by omega) hz
  | case3 base size h hsize =>
      exact ⟨hbase, fun j z hj hz => hbehind j z (by omega) hz⟩

/-- A search gives the index of what it looks for, or the index behind the last smaller entry. -/
theorem search_spec (hs : xs.toList.Pairwise (· < ·)) (hzero : ∃ y, xs[0]? = some y ∧ y ≤ x) :
    ∃ i, LastUpTo xs x i ∧ (search xs x = .ok i ∨ search xs x = .error (i + 1)) := by
  have hbehind (j z : Nat) (hj : 0 + xs.size ≤ j) (hz : xs[j]? = some z) : x < z := by
    rw [Array.getElem?_eq_none (Nat.zero_add xs.size ▸ hj)] at hz
    cases hz
  have hlast := lastUpTo_bisect hs (Nat.le_of_eq (Nat.zero_add _)) hzero hbehind
  refine ⟨_, hlast, ?_⟩
  obtain ⟨y, hy, hle⟩ := hlast.entry
  rw [search, hy]
  dsimp only
  split
  · exact .inl rfl
  · next hne => exact .inr (congrArg _ (if_pos (Nat.lt_of_le_of_ne hle hne)))

end Ascending

/-! ## The table of a text -/

namespace LineTable

open Source

variable {t l : Text} {p : Position} {n a b : Nat}

theorem lt_of_mem_feeds (h : b ∈ feeds a t) : a < b := by
  induction t generalizing a with
  | nil => cases h
  | cons c r ih =>
      rw [feeds] at h
      have hnext : a < a + c.utf8Size := Nat.lt_add_of_pos_right c.utf8Size_pos
      split at h
      · rcases List.mem_cons.mp h with rfl | h
        · exact hnext
        · exact Nat.lt_trans hnext (ih h)
      · exact Nat.lt_trans hnext (ih h)

theorem pairwise_feeds (a : Nat) (t : Text) : (feeds a t).Pairwise (· < ·) := by
  induction t generalizing a with
  | nil => exact .nil
  | cons c r ih =>
      rw [feeds]
      split
      · exact .cons (fun _ h => lt_of_mem_feeds h) (ih _)
      · exact ih _

theorem pairwise_starts (t : Text) : (ofText t).starts.toList.Pairwise (· < ·) :=
  .cons (fun _ h => lt_of_mem_feeds h) (pairwise_feeds 0 t)

theorem getElem?_feeds (a : Nat) (t : Text) (n : Nat) : (a :: feeds a t)[n]? =
    if n < (lines t).length then some (a + Text.byteLength ((lines t).take n).flatten)
    else none := by
  induction t generalizing a n with
  | nil => cases n <;> rfl
  | cons c r ih =>
      rw [feeds, lines]
      split
      · next hc =>
          cases n with
          | zero => rfl
          | succ n =>
              rw [List.getElem?_cons_succ, ih]
              simp [Nat.add_assoc]
      · have hrest := ih (a + c.utf8Size)
        obtain ⟨l, ls, hlines⟩ := List.exists_cons_of_ne_nil (lines_ne_nil r)
        rw [hlines] at hrest ⊢
        cases n with
        | zero => rfl
        | succ n =>
            have hrest := hrest (n + 1)
            rw [List.getElem?_cons_succ] at hrest ⊢
            rw [hrest]
            simp [Nat.add_assoc]

/-- The table has the start of every line, and nothing else. -/
theorem getElem?_starts (t : Text) (n : Nat) : (ofText t).starts[n]? =
    if n < (lines t).length then some (Text.byteLength ((lines t).take n).flatten) else none := by
  have hfeeds := getElem?_feeds 0 t n
  rw [Nat.zero_add] at hfeeds
  exact (List.getElem?_toArray ..).trans hfeeds

/-- The line that the search ends at starts at the offset or in front of it, and the next one
behind it. -/
theorem exists_lineOf (t : Text) (a : Nat) : ∃ l, (lines t)[(ofText t).lineOf a]? = some l ∧
    Text.byteLength ((lines t).take ((ofText t).lineOf a)).flatten ≤ a ∧
    ∀ n, (ofText t).lineOf a < n → n < (lines t).length →
      a < Text.byteLength ((lines t).take n).flatten := by
  obtain ⟨i, hlast, hsearch⟩ := Ascending.search_spec (x := a) (pairwise_starts t)
    ⟨0, rfl, Nat.zero_le a⟩
  have hline : (ofText t).lineOf a = i := by
    rw [lineOf]
    rcases hsearch with h | h
    · rw [h]
    · rw [h]
      rfl
  obtain ⟨start, hstart, hle⟩ := hlast.entry
  rw [getElem?_starts] at hstart
  rw [hline]
  split at hstart
  · next hi =>
      cases hstart
      refine ⟨_, List.getElem?_eq_getElem hi, hle, fun n hn hlength => ?_⟩
      exact hlast.behind n _ hn ((getElem?_starts t n).trans (if_pos hlength))
  · cases hstart

theorem flatten_take_succ (hl : (lines t)[n]? = some l) :
    ((lines t).take (n + 1)).flatten = ((lines t).take n).flatten ++ l := by
  obtain ⟨hn, rfl⟩ := List.getElem?_eq_some_iff.mp hl
  rw [List.take_succ_eq_append_getElem hn, List.flatten_append, List.flatten_singleton]

/-- The end of a line is the start of the next one, or the end of the text. -/
theorem getD_starts (hl : (lines t)[n]? = some l) :
    (ofText t).starts[n + 1]?.getD t.byteLength =
      Text.byteLength (((lines t).take n).flatten ++ l) := by
  rw [getElem?_starts, ← flatten_take_succ hl]
  split
  · rfl
  · next hlast =>
      rw [Option.getD_none, List.take_of_length_le (Nat.le_of_not_lt hlast), flatten_lines]

/-- The table gives the offset that counting gives. -/
theorem offset_ofText (t : Text) (p : Position) : (ofText t).offset p = Source.offset t p := by
  obtain ⟨line, column⟩ := p
  cases line with
  | zero => rfl
  | succ n =>
      rw [offset_succ, offset, if_neg (Nat.succ_ne_zero n)]
      dsimp only
      rw [Nat.add_sub_cancel, getElem?_starts]
      cases hl : (lines t)[n]? with
      | none => rw [if_neg (Nat.not_lt_of_le (List.getElem?_eq_none_iff.mp hl))]
      | some l =>
          have hn := (List.getElem?_eq_some_iff.mp hl).1
          have hline := Text.slice_append ((lines t).take n).flatten l
            ((lines t).drop (n + 1)).flatten
          rw [← split_line hl] at hline
          have htext : (ofText t).text = t := rfl
          rw [if_pos hn]
          dsimp only
          rw [htext, getD_starts hl, hline]
          rcases Nat.lt_trichotomy column l.length with h | h | h
          · rw [if_pos h, if_pos (Nat.le_of_lt h)]
          · rw [if_neg (Nat.not_lt_of_le (Nat.le_of_eq h.symm)), if_pos h.symm,
              if_pos (Nat.le_of_eq h), List.take_of_length_le (Nat.le_of_eq h.symm),
              Text.byteLength_append]
          · rw [if_neg (Nat.not_lt_of_lt h), if_neg (Nat.ne_of_lt h),
              if_neg (Nat.not_le_of_lt h)]

/-- The part of its line in front of an offset. -/
theorem exists_front (ha : Boundary t a) : ∃ l m, (lines t)[(ofText t).lineOf a]? = some l ∧
    m <+: l ∧ (m = l → (ofText t).lineOf a + 1 = (lines t).length) ∧
    a = Text.byteLength (((lines t).take ((ofText t).lineOf a)).flatten ++ m) ∧
    Text.slice t (Text.byteLength ((lines t).take ((ofText t).lineOf a)).flatten) a = m := by
  obtain ⟨l, hl, hstart, hnext⟩ := exists_lineOf t a
  generalize (ofText t).lineOf a = n at hl hstart hnext ⊢
  obtain ⟨u, v, htext, rfl⟩ := ha
  have hsplit := split_line hl
  obtain ⟨m, htext', rfl, hslice⟩ := Text.exists_slice hsplit htext hstart
  have happend : l ++ ((lines t).drop (n + 1)).flatten = m ++ v :=
    List.append_cancel_left (hsplit.symm.trans htext')
  have hlength := (List.getElem?_eq_some_iff.mp hl).1
  have hbefore (hlt : n + 1 < (lines t).length) :
      Text.byteLength (((lines t).take n).flatten ++ m) <
        Text.byteLength (((lines t).take n).flatten ++ l) := by
    rw [← flatten_take_succ hl]
    exact hnext (n + 1) (Nat.lt_succ_self n) hlt
  refine ⟨l, m, hl, ?_, fun hall => ?_, rfl, hslice⟩
  · rcases List.append_eq_append_iff.mp happend with ⟨w, rfl, hw⟩ | ⟨w, rfl, -⟩
    · have hlast : ¬n + 1 < (lines t).length := fun hlt => by
        have hlt := hbefore hlt
        rw [← List.append_assoc, Text.byteLength_append _ w] at hlt
        exact absurd hlt (Nat.not_lt_of_le (Nat.le_add_right _ _))
      rw [List.drop_eq_nil_of_le (Nat.le_of_not_lt hlast)] at hw
      obtain ⟨rfl, -⟩ := List.append_eq_nil_iff.mp hw.symm
      exact ⟨[], by rw [List.append_nil, List.append_nil]⟩
    · exact List.prefix_append m w
  · refine Nat.le_antisymm hlength (Nat.le_of_not_lt fun hlt => ?_)
    exact absurd (hbefore hlt) (hall ▸ Nat.lt_irrefl _)

/-- The table gives the place that counting gives. -/
theorem position_ofText (ha : Boundary t a) : (ofText t).position a = Source.position t a := by
  obtain ⟨l, m, hl, hm, hlast, hoffset, hslice⟩ := exists_front ha
  have hlength := (List.getElem?_eq_some_iff.mp hl).1
  have hplace : (ofText t).position a = ⟨(ofText t).lineOf a + 1, m.length⟩ := by
    have htext : (ofText t).text = t := rfl
    have hstart : (ofText t).starts.getD ((ofText t).lineOf a) 0 =
        Text.byteLength ((lines t).take ((ofText t).lineOf a)).flatten := by
      rw [Array.getD_eq_getD_getElem?, getElem?_starts, if_pos hlength, Option.getD_some]
    rw [position, htext, Nat.min_eq_left ha.le_byteLength, hstart, hslice]
  have hback : Source.offset t ⟨(ofText t).lineOf a + 1, m.length⟩ = some a := by
    refine offset_eq_some_iff.mpr ⟨Nat.le_add_left 1 _, l, hl, hm.length_le, ?_⟩
    rw [← List.prefix_iff_eq_take.mp hm]
    exact hoffset
  refine hplace.trans ((position_of_offset hback).2.2 fun ⟨w, hw, hcolumn⟩ => ?_).symm
  obtain rfl : l = w ++ ['\n'] := Option.some.inj (hl.symm.trans hw)
  have hall : m = w ++ ['\n'] := hm.eq_of_length (by rw [List.length_append]; exact hcolumn)
  exact absurd ((lined_lines t).succ_lt hl) (Nat.not_lt_of_le (Nat.le_of_eq (hlast hall).symm))

/-- The offsets between the characters of `t` and its places correspond in a table, in order. -/
structure OrderIso (t : Text) (table : LineTable) : Prop where
  position_increasing : ∀ a b, Boundary t a → Boundary t b → a < b →
    table.position a < table.position b
  offset_position : ∀ a, Boundary t a → table.offset (table.position a) = some a
  /-- The places of a text are the columns of its lines, with the one behind the last character. -/
  isSome_offset : ∀ p, (table.offset p).isSome ↔ (1 ≤ p.line ∧ p.line ≤ (lines t).length) ∧
    ∃ l, (lines t)[p.line - 1]? = some l ∧ p.column ≤ l.length
  boundary_offset : ∀ p a, table.offset p = some a → Boundary t a
  position_offset : ∀ p a, table.offset p = some a → ¬PastLineFeed t p → table.position a = p
  position_pastLineFeed : ∀ p a, table.offset p = some a → PastLineFeed t p →
    table.position a = ⟨p.line + 1, 0⟩

/-- **The table of a text is an order isomorphism**, and finds what counting through the text
finds. -/
theorem orderIso_ofText (t : Text) : OrderIso t (ofText t) ∧
    (∀ a, Boundary t a → (ofText t).position a = Source.position t a) ∧
    ∀ p, (ofText t).offset p = Source.offset t p := by
  refine ⟨⟨fun a b ha hb h => ?_, fun a ha => ?_, fun p => ?_, fun p a h => ?_, fun p a h => ?_,
    fun p a h => ?_⟩, fun a ha => position_ofText ha, offset_ofText t⟩
  · rw [position_ofText ha, position_ofText hb]
    exact position_lt_position ha hb h
  · rw [offset_ofText, position_ofText ha]
    exact Source.offset_position ha
  · rw [offset_ofText, Option.isSome_iff_exists]
    constructor
    · rintro ⟨a, h⟩
      obtain ⟨hline, l, hl, hcolumn, -⟩ := offset_eq_some_iff.mp h
      have hlength := (List.getElem?_eq_some_iff.mp hl).1
      exact ⟨⟨hline, by omega⟩, l, hl, hcolumn⟩
    · rintro ⟨⟨hline, -⟩, l, hl, hcolumn⟩
      exact ⟨_, offset_eq_some_iff.mpr ⟨hline, l, hl, hcolumn, rfl⟩⟩
  · exact (position_of_offset (offset_ofText t p ▸ h)).1
  · obtain ⟨ha, -, hplace⟩ := position_of_offset (offset_ofText t p ▸ h)
    exact fun hpast => (position_ofText ha).trans (hplace hpast)
  · obtain ⟨ha, hplace, -⟩ := position_of_offset (offset_ofText t p ▸ h)
    exact fun hpast => (position_ofText ha).trans (hplace hpast)

/-- The column past the line feed of `é` is the start of the next line. -/
example : (ofText "é\nb".toList).offset ⟨1, 2⟩ = some 3 ∧
    (ofText "é\nb".toList).position 3 = ⟨2, 0⟩ := by cbv

end LineTable
end Stache
