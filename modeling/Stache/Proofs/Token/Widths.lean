import Stache.Proofs.Token.Slices

/-!
# Widths of tokens

The width that a reading gives counts characters of the text it was read from
(`fits_readToken`).  A search that finds the end of a delimiter, a comment or a number finds it
in the text.
-/

namespace Stache
namespace Reading

/-- The reading takes no more than the text. -/
def Fits (cs : Text) : Reading → Prop
  | .token _ width => width ≤ cs.length
  | _ => True

variable {cs r : Text} {width : Nat}

/-! ## Delimiters -/

/-- A spelling that stands behind the first characters ends in the text. -/
theorem add_length_le {w : Text} {n : Nat} (hw : w ≠ []) (h : w.isPrefixOf (cs.drop n) = true) :
    n + w.length ≤ cs.length := by
  have hle := (List.isPrefixOf_iff_prefix.mp h).length_le
  have hpos := List.length_pos_iff.mpr hw
  rw [List.length_drop] at hle
  omega

/-- A closer lies in the text. -/
theorem closingWidth?_le (h : closingWidth? cs = some width) : width ≤ cs.length := by
  simp only [closingWidth?, Option.ite_none_right_eq_some, Option.some.injEq] at h
  obtain ⟨hstart, rfl⟩ := h
  exact add_length_le (by decide) hstart

theorem elseWidth?_le (h : elseWidth? cs = some width) : width ≤ cs.length := by
  simp only [elseWidth?, Option.ite_none_right_eq_some, Option.some.injEq] at h
  obtain ⟨hstart, rfl⟩ := h
  exact add_length_le (by decide) hstart

/-- The start of a link lies in the text. -/
theorem chainWidth?_le (h : chainWidth? cs = some width) : width ≤ cs.length := by
  rw [chainWidth?] at h
  split at h
  · next helse =>
      simp only [Option.ite_none_left_eq_some, Option.some.injEq] at h
      obtain ⟨-, rfl⟩ := h
      exact elseWidth?_le helse
  · cases h

/-- An else tag lies in the text. -/
theorem elseTagWidth?_le (h : elseTagWidth? cs = some width) : width ≤ cs.length := by
  unfold elseTagWidth? at h
  split at h
  · obtain ⟨n, hn, rfl⟩ := Option.map_eq_some_iff.mp h
    exact Nat.succ_le_succ (closingWidth?_le hn)
  · split at h
    · next more helse =>
        obtain ⟨n, hn, rfl⟩ := Option.map_eq_some_iff.mp h
        have hle := closingWidth?_le hn
        have hmore := elseWidth?_le helse
        rw [List.length_drop] at hle
        omega
    · cases h

/-- A first mark lies in the text, if each mark lies where it is looked for. -/
theorem endOfFirst_le {mark : Text → Option Nat} (hmark : ∀ {v n}, mark v = some n → n ≤ v.length)
    (h : Text.endOfFirst mark cs = some width) : width ≤ cs.length := by
  induction cs generalizing width with
  | nil => cases h
  | cons c r ih =>
      rw [Text.endOfFirst] at h
      split at h
      · next hwidth =>
          cases h
          exact hmark hwidth
      · obtain ⟨n, hn, rfl⟩ := Option.map_eq_some_iff.mp h
        exact Nat.succ_le_succ (ih hn)

/-- A comment lies in the text. -/
theorem commentWidth?_le (h : commentWidth? cs = some width) : width ≤ cs.length := by
  have hlen {w v : Text} (h : w.isPrefixOf v = true) : w.length ≤ v.length :=
    (List.isPrefixOf_iff_prefix.mp h).length_le
  rw [commentWidth?] at h
  split at h
  · refine endOfFirst_le (fun {v n} hv => ?_) h
    split at hv
    · next hstart =>
        cases hv
        exact hlen hstart
    · split at hv
      · next hstart =>
          cases hv
          exact hlen hstart
      · cases hv
  · refine endOfFirst_le (fun {v n} hv => ?_) h
    split at hv
    · next hstart =>
        cases hv
        exact hlen hstart
    · cases hv

/-- What belongs to an opener lies in the text. -/
theorem Modifier.le_length {kind : Opener} (h : Modifier r kind width) : width ≤ r.length := by
  cases h with
  | chain h => exact chainWidth?_le h
  | plain => exact Nat.zero_le _
  | inclusion h | inclusionBlock h | starredBlock h | block h | close h | inverse h
  | unescaped h | ampersand h | starred h => exact h.length_le

/-! ## Literals -/

theorem fractionWidth_le (cs : Text) : fractionWidth cs ≤ cs.length := by
  rw [fractionWidth.eq_def]
  split
  · next r =>
      have hdigits := (List.takeWhile_prefix Char.isDigit (l := r)).length_le
      dsimp only
      split
      · exact Nat.zero_le _
      · exact Nat.succ_le_succ hdigits
  · exact Nat.zero_le _

/-- A number lies in the text. -/
theorem numberWidth?_le (h : numberWidth? cs = some width) : width ≤ cs.length := by
  simp only [numberWidth?, Option.ite_none_left_eq_some, Option.some.injEq] at h
  obtain ⟨hwhole, rfl⟩ := h
  generalize (if cs.head? = some '-' then 1 else 0) = sign at *
  have hdigits := (List.takeWhile_prefix Char.isDigit (l := cs.drop sign)).length_le
  generalize (List.takeWhile Char.isDigit (cs.drop sign)).length = whole at *
  have hfraction := fractionWidth_le (cs.drop (sign + whole))
  rw [List.length_drop] at hdigits hfraction
  omega

/-! ## All tokens -/

/-- A delimiter lies in the text. -/
theorem Delimiter.fits {x : Reading} (h : Delimiter cs x) : x.Fits cs := by
  cases h with
  | opener hcs _ h =>
      rw [Fits, hcs, List.length_append]
      exact Nat.add_le_add_left h.le_length _
  | elseTag hcs _ h =>
      rw [Fits, hcs, List.length_append]
      exact Nat.add_le_add_left (elseTagWidth?_le h) _
  | comment hcs _ h =>
      rw [Fits, hcs, List.length_append, List.length_cons, Nat.add_assoc, Nat.add_comm 1]
      exact Nat.add_le_add_left (Nat.succ_le_succ (commentWidth?_le h)) _
  | unterminatedComment => trivial
  | unescapedCloser h | closer h =>
      exact add_length_le (by decide) (List.isPrefixOf_iff_prefix.mpr h)

/-- Every token lies in the text that it is read from. -/
theorem Shape.fits {x : Reading} (h : Shape cs x) : x.Fits cs := by
  cases h with
  | delimiter h => exact h.fits
  | symbol _ hstart => exact hstart.length_le
  | number h => exact numberWidth?_le h
  | unterminatedString => trivial
  | dot hcs | string hcs | paramsOpen hcs | ident hcs | bracketIdent hcs =>
      rw [Fits, hcs]
      simp

/-- **A token lies in the text it is read from.** -/
theorem fits_readToken (square afterSeparator : Bool) (cs : Text) :
    All (Fits cs) (readToken square afterSeparator cs) :=
  (shape_readToken square afterSeparator cs).mono Shape.fits

end Reading
end Stache
