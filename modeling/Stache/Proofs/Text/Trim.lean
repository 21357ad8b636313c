import Mathlib.Data.List.DropRight
import Stache.Text

/-!
# Algebra of the trims

Two trims shorten a text at its start and two at its end.  Each removes white
space only, and a second time it removes nothing.  A trim at one end never
undoes what a trim at the other end has reached: it leaves a shorter piece of
the same text, and a piece that keeps its end keeps being trimmed there.

A trim at the start commutes with a trim at the end.  So the text that remains
between two tags does not depend on which of them is carried out first.
-/

namespace Stache
namespace Text

/-! ## Trailing characters -/

/-- Trailing characters are dropped from the right. -/
theorem trimTrailing_eq_rdropWhile (p : Char → Bool) (t : Text) :
    trimTrailing p t = List.rdropWhile p t := rfl

@[simp] theorem trimTrailing_nil (p : Char → Bool) : trimTrailing p [] = [] := rfl

/-- The first character goes only if all that follows it went and it is one of
those to be removed. -/
theorem trimTrailing_cons (p : Char → Bool) (c : Char) (t : Text) :
    trimTrailing p (c :: t) =
      if trimTrailing p t = [] ∧ p c = true then [] else c :: trimTrailing p t := by
  simp only [trimTrailing_eq_rdropWhile, List.rdropWhile, List.reverse_cons,
    List.dropWhile_append, List.isEmpty_iff, List.reverse_eq_nil_iff]
  by_cases h : List.dropWhile p t.reverse = []
  · by_cases hc : p c = true
    · simp [h, hc]
    · simp [h, hc]
  · simp [h]

/-- What is left is a piece at the start. -/
theorem trimTrailing_isPrefix (p : Char → Bool) (t : Text) : trimTrailing p t <+: t :=
  List.rdropWhile_prefix p t

/-- Trailing characters are dropped at once. -/
theorem trimTrailing_idem (p : Char → Bool) (t : Text) :
    trimTrailing p (trimTrailing p t) = trimTrailing p t :=
  List.rdropWhile_idempotent p t

/-- What is dropped from the end has the property. -/
theorem trailing_all (p : Char → Bool) (t : Text) : ∀ c ∈ trailing p t, p c = true := by
  intro c hc
  rw [trailing, List.mem_reverse] at hc
  exact List.mem_takeWhile_imp hc

/-- What ends without such a character still does when its start is cut. -/
theorem trimTrailing_eq_self_of_isSuffix {p : Char → Bool} {s t : Text} (hs : s <:+ t)
    (ht : trimTrailing p t = t) : trimTrailing p s = s := by
  rw [trimTrailing_eq_rdropWhile, List.rdropWhile_eq_self_iff] at ht ⊢
  intro hne
  obtain ⟨r, rfl⟩ := hs
  have hlast := ht (by simp [hne])
  rwa [List.getLast_append_of_ne_nil _ hne] at hlast

/-- Trailing characters and leading characters are removed in either order. -/
theorem trimTrailing_dropWhile (p q : Char → Bool) (t : Text) :
    trimTrailing p (t.dropWhile q) = (trimTrailing p t).dropWhile q := by
  induction t with
  | nil => rfl
  | cons c t ih =>
      rw [trimTrailing_cons]
      by_cases hq : q c = true
      · rw [List.dropWhile_cons_of_pos hq, ih]
        split
        · next h => rw [h.1]
        · rw [List.dropWhile_cons_of_pos hq]
      · rw [List.dropWhile_cons_of_neg hq, trimTrailing_cons]
        split
        · rfl
        · rw [List.dropWhile_cons_of_neg hq]

/-! ## One character at the start -/

/-- The text without a given character at its start, as either half of a line
break is removed. -/
def dropIf (d : Char) : Text → Text
  | [] => []
  | c :: t => if c = d then t else c :: t

/-- A carriage return is dropped like any other character. -/
theorem dropReturn_eq_dropIf (t : Text) : dropReturn t = dropIf '\r' t := by
  cases t with
  | nil => rfl
  | cons c t =>
      by_cases h : c = '\r'
      · subst h; rfl
      · rw [dropIf, if_neg h, dropReturn]
        rintro r ⟨rfl, rfl⟩
        exact h rfl

theorem dropLineFeed_eq_dropIf (t : Text) : dropLineFeed t = dropIf '\n' t := by
  cases t with
  | nil => rfl
  | cons c t =>
      by_cases h : c = '\n'
      · subst h; rfl
      · rw [dropIf, if_neg h, dropLineFeed]
        rintro r ⟨rfl, rfl⟩
        exact h rfl

/-- What is left is a piece at the end. -/
theorem dropIf_isSuffix (d : Char) (t : Text) : dropIf d t <:+ t := by
  cases t with
  | nil => exact List.suffix_rfl
  | cons c t =>
      rw [dropIf]
      split
      · exact List.suffix_cons c t
      · exact List.suffix_rfl

/-- A character at the start does not matter to the trailing ones. -/
theorem trimTrailing_dropIf (p : Char → Bool) (d : Char) (t : Text) :
    trimTrailing p (dropIf d t) = dropIf d (trimTrailing p t) := by
  cases t with
  | nil => rfl
  | cons c t =>
      rw [trimTrailing_cons, dropIf]
      split
      · next hd =>
          split
          · next h => rw [h.1]; rfl
          · rw [dropIf, if_pos hd]
      · next hd =>
          rw [trimTrailing_cons]
          split
          · rfl
          · rw [dropIf, if_neg hd]

/-- A line of padding is blanks and a line break. -/
theorem trimLine_eq (t : Text) :
    trimLine t = dropIf '\n' (dropIf '\r' (t.dropWhile isBlank)) := by
  rw [trimLine, dropLineFeed_eq_dropIf, dropReturn_eq_dropIf]

/-! ## Pieces of a text -/

/-- A trim at the start leaves a piece at the end. -/
theorem trimStart_isSuffix (t : Text) : trimStart t <:+ t := List.dropWhile_suffix _

theorem trimLine_isSuffix (t : Text) : trimLine t <:+ t := by
  rw [trimLine_eq]
  exact ((dropIf_isSuffix _ _).trans (dropIf_isSuffix _ _)).trans (List.dropWhile_suffix _)

/-- A trim at the end leaves a piece at the start. -/
theorem trimEnd_isPrefix (t : Text) : trimEnd t <+: t := trimTrailing_isPrefix isSpace t

theorem trimPadding_isPrefix (t : Text) : trimPadding t <+: t := trimTrailing_isPrefix isBlank t

/-- What a trim at the start removes is white space. -/
theorem exists_trimStart_append (t : Text) :
    ∃ p : Text, (∀ c ∈ p, isSpace c = true) ∧ t = p ++ trimStart t :=
  ⟨t.takeWhile isSpace, fun _ hc => List.mem_takeWhile_imp hc,
    List.takeWhile_append_dropWhile.symm⟩

/-- A blank is white space. -/
theorem isSpace_of_isBlank {c : Char} (h : isBlank c = true) : isSpace c = true :=
  isSpace_of_isTagSpace (isTagSpace_of_isBlank h)

/-- A white character that is dropped at the start is white space in front. -/
theorem exists_dropIf_append {d : Char} (hd : isSpace d = true) (t : Text) :
    ∃ p : Text, (∀ c ∈ p, isSpace c = true) ∧ t = p ++ dropIf d t := by
  cases t with
  | nil => exact ⟨[], by simp, rfl⟩
  | cons c t =>
      by_cases h : c = d
      · subst h
        exact ⟨[c], by simpa using hd, by simp [dropIf]⟩
      · exact ⟨[], by simp, by simp [dropIf, h]⟩

/-- What a trim of one line removes is white space. -/
theorem exists_trimLine_append (t : Text) :
    ∃ p : Text, (∀ c ∈ p, isSpace c = true) ∧ t = p ++ trimLine t := by
  obtain ⟨q, hq, htq⟩ := exists_dropIf_append (d := '\r') (by decide) (t.dropWhile isBlank)
  obtain ⟨r, hr, htr⟩ :=
    exists_dropIf_append (d := '\n') (by decide) (dropIf '\r' (t.dropWhile isBlank))
  refine ⟨t.takeWhile isBlank ++ q ++ r, ?_, ?_⟩
  · intro c hc
    rw [List.mem_append, List.mem_append] at hc
    rcases hc with (hb | hc) | hc
    · exact isSpace_of_isBlank (List.mem_takeWhile_imp hb)
    · exact hq c hc
    · exact hr c hc
  · rw [trimLine_eq, List.append_assoc, ← htr, List.append_assoc, ← htq,
      List.takeWhile_append_dropWhile]

/-- What a trim at the end removes is white space. -/
theorem exists_trimEnd_append (t : Text) :
    ∃ s : Text, (∀ c ∈ s, isSpace c = true) ∧ t = trimEnd t ++ s :=
  ⟨trailing isSpace t, trailing_all isSpace t, (trimTrailing_append_trailing isSpace t).symm⟩

/-- Padding at the end is white space. -/
theorem exists_trimPadding_append (t : Text) :
    ∃ s : Text, (∀ c ∈ s, isSpace c = true) ∧ t = trimPadding t ++ s :=
  ⟨padding t, fun c hc => isSpace_of_isBlank (trailing_all isBlank t c hc),
    (trimPadding_append_padding t).symm⟩

/-! ## Trimming twice -/

theorem ne_cons_of_isSuffix {s t : Text} (c : Char) (h : s <:+ t) : s ≠ c :: t := by
  intro he
  have hle := h.length_le
  rw [he, List.length_cons] at hle
  omega

/-- Nothing is left to trim exactly where the text does not start with white
space. -/
theorem trimStart_eq_self_iff (t : Text) :
    trimStart t = t ↔ ∀ c ∈ t.head?, isSpace c = false := by
  cases t with
  | nil => simp [trimStart]
  | cons c t =>
      by_cases h : isSpace c = true
      · have hne : trimStart (c :: t) ≠ c :: t := by
          rw [trimStart, List.dropWhile_cons_of_pos h]
          exact ne_cons_of_isSuffix c (List.dropWhile_suffix _)
        simp [hne, h]
      · simp [trimStart, h]

/-- A line trim leaves alone exactly what starts with no blank and no half of a
line break. -/
theorem trimLine_eq_self_iff (t : Text) :
    trimLine t = t ↔ ∀ c ∈ t.head?, isTagSpace c = false := by
  rw [trimLine_eq]
  cases t with
  | nil => simp [dropIf]
  | cons c t =>
      by_cases hb : isBlank c = true
      · have hne : dropIf '\n' (dropIf '\r' ((c :: t).dropWhile isBlank)) ≠ c :: t := by
          rw [List.dropWhile_cons_of_pos hb]
          exact ne_cons_of_isSuffix c
            (((dropIf_isSuffix _ _).trans (dropIf_isSuffix _ _)).trans (List.dropWhile_suffix _))
        simp [hne, isTagSpace_of_isBlank hb]
      · rw [List.dropWhile_cons_of_neg hb, dropIf]
        by_cases hr : c = '\r'
        · subst hr
          simp [ne_cons_of_isSuffix '\r' (dropIf_isSuffix '\n' t), isTagSpace]
        · rw [if_neg hr, dropIf]
          by_cases hn : c = '\n'
          · subst hn
            simp [isTagSpace]
          · simp only [isBlank, Bool.or_eq_true, beq_iff_eq] at hb
            simp [hn, hr, isTagSpace, not_or.mp hb]

/-- A piece at the start starts with the same character. -/
theorem mem_head?_of_isPrefix {s t : Text} {c : Char} (h : s <+: t) (hc : c ∈ s.head?) :
    c ∈ t.head? := by
  cases s with
  | nil => simp at hc
  | cons d s =>
      obtain ⟨r, rfl⟩ := h
      simpa using hc

/-- If nothing can be trimmed at the start of a text, nothing can be at the start of its
first piece. -/
theorem trimStart_eq_self_of_isPrefix {s t : Text} (hs : s <+: t) (ht : trimStart t = t) :
    trimStart s = s :=
  (trimStart_eq_self_iff s).mpr fun c hc =>
    (trimStart_eq_self_iff t).mp ht c (mem_head?_of_isPrefix hs hc)

theorem trimLine_eq_self_of_isPrefix {s t : Text} (hs : s <+: t) (ht : trimLine t = t) :
    trimLine s = s :=
  (trimLine_eq_self_iff s).mpr fun c hc =>
    (trimLine_eq_self_iff t).mp ht c (mem_head?_of_isPrefix hs hc)

/-- If nothing can be trimmed at the end of a text, nothing can be at the end of its last
piece. -/
theorem trimEnd_eq_self_of_isSuffix {s t : Text} (hs : s <:+ t) (ht : trimEnd t = t) :
    trimEnd s = s :=
  trimTrailing_eq_self_of_isSuffix hs ht

theorem trimPadding_eq_self_of_isSuffix {s t : Text} (hs : s <:+ t) (ht : trimPadding t = t) :
    trimPadding s = s :=
  trimTrailing_eq_self_of_isSuffix hs ht

/-- White space at the start is trimmed at once. -/
theorem trimStart_trimStart (t : Text) : trimStart (trimStart t) = trimStart t :=
  List.dropWhile_idempotent isSpace t

/-- White space at the end is trimmed at once. -/
theorem trimEnd_trimEnd (t : Text) : trimEnd (trimEnd t) = trimEnd t :=
  trimTrailing_idem isSpace t

/-- Where no white space is left at the start, no line of it is left either. -/
theorem trimLine_eq_self_of_trimStart {t : Text} (h : trimStart t = t) : trimLine t = t := by
  rw [trimLine_eq_self_iff]
  intro c hc
  have hs := (trimStart_eq_self_iff t).mp h c hc
  by_contra hn
  rw [isSpace_of_isTagSpace (by simpa using hn)] at hs
  cases hs

/-- Where no white space is left at the end, no padding is left either. -/
theorem trimPadding_eq_self_of_trimEnd {t : Text} (h : trimEnd t = t) : trimPadding t = t := by
  rw [trimEnd, trimTrailing_eq_rdropWhile, List.rdropWhile_eq_self_iff] at h
  rw [trimPadding, trimTrailing_eq_rdropWhile, List.rdropWhile_eq_self_iff]
  intro hne hb
  exact h hne (isSpace_of_isBlank hb)

/-! ## Trims at both ends -/

/-- The trims at both ends can be made in either order. -/
theorem trimEnd_trimStart (t : Text) : trimEnd (trimStart t) = trimStart (trimEnd t) :=
  trimTrailing_dropWhile isSpace isSpace t

theorem trimPadding_trimStart (t : Text) :
    trimPadding (trimStart t) = trimStart (trimPadding t) :=
  trimTrailing_dropWhile isBlank isSpace t

/-- A line of padding at the start does not matter to the trailing characters. -/
theorem trimTrailing_trimLine (p : Char → Bool) (t : Text) :
    trimTrailing p (trimLine t) = trimLine (trimTrailing p t) := by
  rw [trimLine_eq, trimLine_eq, trimTrailing_dropIf, trimTrailing_dropIf, trimTrailing_dropWhile]

theorem trimEnd_trimLine (t : Text) : trimEnd (trimLine t) = trimLine (trimEnd t) :=
  trimTrailing_trimLine isSpace t

theorem trimPadding_trimLine (t : Text) : trimPadding (trimLine t) = trimLine (trimPadding t) :=
  trimTrailing_trimLine isBlank t

/-- What a trim of one line leaves of the white space, the trim of all of it
takes. -/
theorem trimStart_trimLine (t : Text) : trimStart (trimLine t) = trimStart t := by
  obtain ⟨p, hp, ht⟩ := exists_trimLine_append t
  conv_rhs => rw [ht]
  exact (List.dropWhile_append_of_pos hp).symm

/-- Padding is white space, so nothing of it is left to trim twice. -/
theorem trimEnd_trimPadding (t : Text) : trimEnd (trimPadding t) = trimEnd t := by
  obtain ⟨s, hs, ht⟩ := exists_trimPadding_append t
  conv_rhs => rw [ht]
  rw [trimEnd, trimEnd, trimTrailing, trimTrailing, List.reverse_append,
    List.dropWhile_append_of_pos fun c hc => hs c (List.mem_reverse.mp hc)]

end Text
end Stache
