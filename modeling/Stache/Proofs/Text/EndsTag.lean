import Stache.Proofs.Text.EndsWith

/-!
# Texts that end as a tag does

The last two characters of a tag are closing braces, whichever token ends it.  So a search
over the rest of a tag that stops at a `}` stops in front of what follows the tag
(`EndsTag.takeWhile_append`), and a word without one lies in the tag or not at all
(`EndsTag.isPrefixOf_append`).
-/

namespace Stache
namespace Text

/-- The text ends as a tag does. -/
def EndsTag (cs : Text) : Prop := ['}', '}'] <:+ cs

namespace EndsTag

variable {cs k r w : Text} {c : Char} {n : Nat}

theorem two_le (h : EndsTag cs) : 2 ≤ cs.length := h.length_le

/-- What ends a tag ends with a brace. -/
theorem endsWith (h : EndsTag cs) : EndsWith '}' cs := (List.suffix_cons '}' ['}']).trans h

theorem ne_nil (h : EndsTag cs) : cs ≠ [] := h.endsWith.ne_nil

/-- What ends a tag has two characters. -/
theorem exists_cons (h : EndsTag cs) : ∃ c d r, cs = c :: d :: r := by
  match cs, h.two_le with
  | c :: d :: r, _ => exact ⟨c, d, r, rfl⟩

/-- What ends a tag ends one with more in front of it. -/
theorem append (h : EndsTag cs) (k : Text) : EndsTag (k ++ cs) :=
  h.trans (List.suffix_append k cs)

/-- A piece at the end that has the two braces ends the tag. -/
theorem of_suffix (h : EndsTag cs) (hk : k <:+ cs) (hlen : 2 ≤ k.length) : EndsTag k :=
  List.suffix_of_suffix_length_le h hk hlen

/-- A character that is no brace may be taken away. -/
theorem of_cons (h : EndsTag (c :: r)) (hc : c ≠ '}') : EndsTag r := by
  rcases List.suffix_cons_iff.mp h with heq | hr
  · cases heq
    exact absurd rfl hc
  · exact hr

/-- A text without a brace may be taken away. -/
theorem of_append (h : EndsTag (w ++ r)) (hw : '}' ∉ w) : EndsTag r := by
  induction w with
  | nil => exact h
  | cons c w ih =>
      rw [List.mem_cons, not_or] at hw
      exact ih (of_cons h (Ne.symm hw.1)) hw.2

/-- What lies in front of the end of a tag is read in front of it. -/
theorem drop_append (h : EndsTag (cs.drop n)) (t : Text) :
    (cs ++ t).drop n = cs.drop n ++ t := h.endsWith.drop_append t

theorem head?_append (h : EndsTag cs) (t : Text) : (cs ++ t).head? = cs.head? :=
  h.endsWith.head?_append t

/-- A spelling without `}` lies in front of the end of the tag. -/
theorem isPrefixOf_append (h : EndsTag cs) (hw : '}' ∉ w) (t : Text) :
    w.isPrefixOf (cs ++ t) = w.isPrefixOf cs := h.endsWith.isPrefixOf_append hw t

/-- So does a spelling that ends with the two braces at its first `}`. -/
theorem isPrefixOf_append_braces (h : EndsTag cs) (hw : '}' ∉ w) (t : Text) :
    (w ++ ['}', '}']).isPrefixOf (cs ++ t) = (w ++ ['}', '}']).isPrefixOf cs := by
  induction w generalizing cs with
  | nil => exact isPrefixOf_append_of_le (p := ['}', '}']) h.two_le t
  | cons c w ih =>
      obtain ⟨d, e, r, rfl⟩ := h.exists_cons
      rw [List.mem_cons, not_or] at hw
      by_cases hc : c = d
      · subst hc
        have hrest := ih (h.of_cons (Ne.symm hw.1)) hw.2
        simpa only [List.cons_append, List.isPrefixOf_cons_cons, beq_self_eq_true, Bool.true_and]
          using hrest
      · have hne : (c == d) = false := beq_eq_false_iff_ne.mpr hc
        rw [List.cons_append, List.cons_append, List.isPrefixOf_cons_cons,
          List.isPrefixOf_cons_cons, hne, Bool.false_and, Bool.false_and]

section While

variable {p : Char → Bool} (h : EndsTag cs) (hp : p '}' = false)
include h hp

/-- What is dropped in front does not reach into the braces. -/
theorem dropWhile : EndsTag (cs.dropWhile p) := by
  refine of_append (w := cs.takeWhile p) ?_ fun hmem => ?_
  · rw [List.takeWhile_append_dropWhile]
    exact h
  · have hall := List.all_eq_true.mp List.all_takeWhile _ hmem
    rw [hp] at hall
    cases hall

/-- What is dropped in front does not depend on what follows the tag. -/
theorem dropWhile_append (t : Text) : (cs ++ t).dropWhile p = cs.dropWhile p ++ t :=
  h.endsWith.dropWhile_append hp t

/-- What is taken in front does not depend on what follows the tag. -/
theorem takeWhile_append (t : Text) : (cs ++ t).takeWhile p = cs.takeWhile p :=
  h.endsWith.takeWhile_append hp t

end While
end EndsTag

end Text

end Stache
