import Stache.Text

/-!
# Texts with a known last character

A search over a text that stops at its last character stops in front of whatever follows the
text (`EndsWith.takeWhile_append`), and a word without that character lies in the text or does
not start there at all (`EndsWith.isPrefixOf_append`).
-/

namespace Stache
namespace Text

/-- Whether a short text starts a longer one does not depend on what follows that. -/
theorem isPrefixOf_append_of_le {p cs : Text} (h : p.length ≤ cs.length) (t : Text) :
    p.isPrefixOf (cs ++ t) = p.isPrefixOf cs := by
  rw [Bool.eq_iff_iff, List.isPrefixOf_iff_prefix, List.isPrefixOf_iff_prefix]
  exact ⟨fun hp => List.prefix_of_prefix_length_le hp (List.prefix_append cs t) h,
    fun hp => hp.trans (List.prefix_append cs t)⟩

/-- The last character of the text. -/
def EndsWith (c : Char) (cs : Text) : Prop := [c] <:+ cs

namespace EndsWith

variable {c d : Char} {cs k r w : Text} {n : Nat}

theorem ne_nil (h : EndsWith c cs) : cs ≠ [] := by
  rintro rfl
  cases List.suffix_nil.mp h

theorem of_suffix (h : EndsWith c cs) (hk : k <:+ cs) (hne : k ≠ []) : EndsWith c k :=
  List.suffix_of_suffix_length_le h hk (List.length_pos_iff.mpr hne)

theorem of_cons (h : EndsWith c (d :: r)) (hd : d ≠ c) : EndsWith c r := by
  rcases List.suffix_cons_iff.mp h with heq | hr
  · exact absurd (List.cons.inj heq).1.symm hd
  · exact hr

theorem of_append (h : EndsWith c (w ++ r)) (hw : c ∉ w) : EndsWith c r := by
  induction w with
  | nil => exact h
  | cons d w ih =>
      rw [List.mem_cons, not_or] at hw
      exact ih (of_cons h (Ne.symm hw.1)) hw.2

/-- What lies in front of the last character is read in front of it. -/
theorem drop_append (h : EndsWith c (cs.drop n)) (t : Text) :
    (cs ++ t).drop n = cs.drop n ++ t := by
  have hlen : 1 ≤ (cs.drop n).length := h.length_le
  rw [List.length_drop] at hlen
  exact List.drop_append_of_le_length (by omega)

theorem head?_append (h : EndsWith c cs) (t : Text) : (cs ++ t).head? = cs.head? := by
  obtain ⟨d, r, rfl⟩ := List.exists_cons_of_ne_nil h.ne_nil
  rfl

/-- A word without the last character lies in front of it. -/
theorem isPrefixOf_append (h : EndsWith c cs) (hw : c ∉ w) (t : Text) :
    w.isPrefixOf (cs ++ t) = w.isPrefixOf cs := by
  by_cases hlen : w.length ≤ cs.length
  · exact isPrefixOf_append_of_le hlen t
  · have hmem : c ∈ cs := h.mem List.mem_cons_self
    have hnot : ¬w <+: cs := fun hp => hlen hp.length_le
    have hnot' : ¬w <+: cs ++ t := fun hp =>
      hw ((List.prefix_of_prefix_length_le (List.prefix_append cs t) hp (by omega)).mem hmem)
    rw [Bool.eq_iff_iff, List.isPrefixOf_iff_prefix, List.isPrefixOf_iff_prefix]
    exact iff_of_false hnot' hnot

/-- Behind a word without the last character there is more. -/
theorem drop (h : EndsWith c cs) (hw : c ∉ w) (hstart : w.isPrefixOf cs = true) :
    EndsWith c (cs.drop w.length) := by
  obtain ⟨r, rfl⟩ := List.isPrefixOf_iff_prefix.mp hstart
  rw [List.drop_left]
  exact h.of_append hw

section While

variable {p : Char → Bool} (h : EndsWith c cs) (hp : p c = false)
include h hp

theorem dropWhile : EndsWith c (cs.dropWhile p) := by
  refine of_append (w := cs.takeWhile p) ?_ fun hmem => ?_
  · rw [List.takeWhile_append_dropWhile]
    exact h
  · have hall := List.all_eq_true.mp List.all_takeWhile _ hmem
    rw [hp] at hall
    cases hall

theorem dropWhile_append (t : Text) : (cs ++ t).dropWhile p = cs.dropWhile p ++ t := by
  rw [List.dropWhile_append, if_neg fun hempty =>
    (h.dropWhile hp).ne_nil (List.isEmpty_iff.mp hempty)]

theorem takeWhile_append (t : Text) : (cs ++ t).takeWhile p = cs.takeWhile p := by
  have happ : (cs ++ t).takeWhile p ++ (cs ++ t).dropWhile p = cs ++ t :=
    List.takeWhile_append_dropWhile
  have hcs : cs.takeWhile p ++ cs.dropWhile p = cs := List.takeWhile_append_dropWhile
  rw [h.dropWhile_append hp, ← List.append_assoc] at happ
  exact List.append_cancel_right ((List.append_cancel_right happ).trans hcs.symm)

end While
end EndsWith

theorem drop_takeWhile (p : Char → Bool) (cs : Text) :
    cs.drop (cs.takeWhile p).length = cs.dropWhile p := by
  have hcs : cs.takeWhile p ++ cs.dropWhile p = cs := List.takeWhile_append_dropWhile
  calc cs.drop (cs.takeWhile p).length
      = (cs.takeWhile p ++ cs.dropWhile p).drop (cs.takeWhile p).length := by rw [hcs]
    _ = cs.dropWhile p := List.drop_left

end Text
end Stache
