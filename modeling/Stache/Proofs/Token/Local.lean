import Stache.Proofs.Text.EndsTag
import Stache.Token.Reading

/-!
# Tokens that are told before the end of their tag

Most alternatives of `readToken` look no further than the `}}` that ends the tag, because
what they look for holds no brace or stops at one.  In front of a `}}` they give the same
answer whatever follows it.  Those that stand inside a tag look no further than the next `)`
either.
-/

namespace Stache
namespace Reading

open Text

variable {cs : Text}

/-! ## Widths -/

/-- The white space in front of a text does not depend on what follows the tag. -/
theorem spaceWidth_append (h : EndsTag cs) (t : Text) : spaceWidth (cs ++ t) = spaceWidth cs := by
  rw [spaceWidth, h.takeWhile_append (by decide), spaceWidth]

theorem endsTag_spaceWidth (h : EndsTag cs) : EndsTag (cs.drop (spaceWidth cs)) := by
  rw [spaceWidth, drop_takeWhile]
  exact h.dropWhile (by decide)

/-- A marker in front of a text does not depend on what follows the tag. -/
theorem tildeWidth_append (h : EndsTag cs) (t : Text) : tildeWidth (cs ++ t) = tildeWidth cs := by
  obtain ⟨c, d, r, rfl⟩ := h.exists_cons
  rw [List.cons_append, tildeWidth.eq_def, tildeWidth.eq_def]
  split <;> simp_all

theorem endsTag_tildeWidth (h : EndsTag cs) : EndsTag (cs.drop (tildeWidth cs)) := by
  rw [tildeWidth.eq_def]
  split
  · exact h.of_cons (by decide)
  · exact h

/-- A closer is found in the tag, whatever follows. -/
theorem closingWidth?_append (h : EndsTag cs) (t : Text) :
    closingWidth? (cs ++ t) = closingWidth? cs := by
  have hspace := endsTag_spaceWidth h
  have htilde := endsTag_tildeWidth hspace
  rw [List.drop_drop] at htilde
  rw [closingWidth?, spaceWidth_append h, hspace.drop_append, tildeWidth_append hspace,
    closingWidth?]
  rw [htilde.drop_append, isPrefixOf_append_of_le (p := ['}', '}']) htilde.two_le]

/-- A word without `}` in front of the end of a tag leaves the end of the tag behind it. -/
theorem endsTag_drop {w : Text} (h : EndsTag cs) (hw : '}' ∉ w) (hstart : w.isPrefixOf cs = true) :
    EndsTag (cs.drop w.length) := by
  obtain ⟨r, rfl⟩ := List.isPrefixOf_iff_prefix.mp hstart
  rw [List.drop_left]
  exact h.of_append hw

/-- The word `else` is found in the tag, whatever follows. -/
theorem elseWidth?_append (h : EndsTag cs) (t : Text) :
    elseWidth? (cs ++ t) = elseWidth? cs := by
  have hspace := endsTag_spaceWidth h
  rw [elseWidth?, spaceWidth_append h, hspace.drop_append, hspace.isPrefixOf_append (by decide),
    elseWidth?]

theorem endsTag_elseWidth? {width : Nat} (h : EndsTag cs) (hwidth : elseWidth? cs = some width) :
    EndsTag (cs.drop width) := by
  simp only [elseWidth?, Option.ite_none_right_eq_some, Option.some.injEq] at hwidth
  obtain ⟨hstart, rfl⟩ := hwidth
  rw [← List.drop_drop]
  exact endsTag_drop (w := ['e', 'l', 's', 'e']) (endsTag_spaceWidth h) (by decide) hstart

/-- An else tag is found in the tag, whatever follows. -/
theorem elseTagWidth?_append (h : EndsTag cs) (t : Text) :
    elseTagWidth? (cs ++ t) = elseTagWidth? cs := by
  obtain ⟨c, d, r, rfl⟩ := h.exists_cons
  by_cases hc : c = '^'
  · subst hc
    rw [List.cons_append, elseTagWidth?, closingWidth?_append (h.of_cons (by decide)),
      elseTagWidth?]
  · have helse := elseWidth?_append h t
    rw [elseTagWidth?.eq_2 _ (by simpa using hc), elseTagWidth?.eq_2 _ (by simpa using hc), helse]
    split
    · next width hwidth =>
        have hrest := endsTag_elseWidth? h hwidth
        rw [hrest.drop_append, closingWidth?_append hrest]
    · rfl

/-- The start of a link is found in the tag, whatever follows. -/
theorem chainWidth?_append (h : EndsTag cs) (t : Text) :
    chainWidth? (cs ++ t) = chainWidth? cs := by
  rw [chainWidth?, elseWidth?_append h, chainWidth?]
  split
  · next width hwidth =>
      have hrest := endsTag_elseWidth? h hwidth
      rw [hrest.drop_append, hrest.head?_append]
  · rfl

/-! ## Alternatives that look no further than a delimiter -/

/-- A brace or a parenthesis, at which these alternatives stop. -/
def Stops (c : Char) : Prop := c = '}' ∨ c = ')'

/-- The boundary of a word is its next character, whatever follows. -/
theorem boundary_append (h : cs ≠ []) (allowed : Text) (square : Bool) (t : Text) :
    boundary allowed square (cs ++ t) = boundary allowed square cs := by
  obtain ⟨c, r, rfl⟩ := List.exists_cons_of_ne_nil h
  rfl

theorem blockParams_eq_none (h : ¬['a', 's'] <+: cs) : blockParams cs = none := by
  rw [blockParams.eq_def]
  split
  · exact absurd ⟨_, rfl⟩ h
  · rfl

section Stops

variable {stop : Char} (h : EndsWith stop cs) (hstop : Stops stop)
include h

/-- A symbol without the stop character is found in front of it. -/
theorem fixed_append {spelling : Text} (hspelling : stop ∉ spelling) (token : Token) (t : Text) :
    fixed spelling token (cs ++ t) = fixed spelling token cs := by
  rw [fixed, h.isPrefixOf_append hspelling, fixed]

/-- A word without the stop character is found in front of it. -/
theorem keyword_append {spelling : Text} (hspelling : stop ∉ spelling) (token : Token)
    (square : Bool) (t : Text) :
    keyword spelling token square (cs ++ t) = keyword spelling token square cs := by
  rw [keyword, h.isPrefixOf_append hspelling, keyword]
  by_cases hstart : spelling.isPrefixOf cs = true
  · have hrest := h.drop hspelling hstart
    rw [hrest.drop_append, boundary_append hrest.ne_nil]
  · simp only [hstart, Bool.false_and]

/-- A bracket of a list is found in front of the stop character, whatever follows. -/
theorem arrayDelimiter_append (square afterSeparator : Bool) (t : Text) :
    arrayDelimiter square afterSeparator (cs ++ t) = arrayDelimiter square afterSeparator cs := by
  obtain ⟨c, r, rfl⟩ := List.exists_cons_of_ne_nil h.ne_nil
  rw [arrayDelimiter.eq_def, arrayDelimiter.eq_def]
  grind

include hstop

/-- Dots are found in front of the stop character, whatever follows. -/
theorem dots_append (t : Text) : dots (cs ++ t) = dots cs := by
  obtain ⟨c, r, rfl⟩ := List.exists_cons_of_ne_nil h.ne_nil
  by_cases hc : c = '.'
  · subst hc
    have hr : r ≠ [] := by
      have hne : '.' ≠ stop := by rcases hstop with rfl | rfl <;> decide
      exact (h.of_cons hne).ne_nil
    obtain ⟨d, r, rfl⟩ := List.exists_cons_of_ne_nil hr
    by_cases hd : d = '.'
    · subst hd
      rfl
    · by_cases hd' : d = '#' <;> simp [dots, boundary, hd, hd']
  · rw [dots.eq_def, dots.eq_def]
    by_cases hc : c = '/' <;> simp_all

/-- A name ends in front of the stop character, whatever follows. -/
theorem ident_append (square : Bool) (t : Text) : ident square (cs ++ t) = ident square cs := by
  have hident : isIdent stop = false := by rcases hstop with rfl | rfl <;> decide
  rw [ident, h.takeWhile_append hident, h.dropWhile_append hident,
    boundary_append (h.dropWhile hident).ne_nil, ident]

/-- The sign of a number lies in front of the stop character. -/
theorem endsWith_sign : EndsWith stop (cs.drop (if cs.head? = some '-' then 1 else 0)) := by
  obtain ⟨c, r, rfl⟩ := List.exists_cons_of_ne_nil h.ne_nil
  split
  · next hc =>
      obtain rfl := Option.some.inj hc
      have hne : '-' ≠ stop := by rcases hstop with rfl | rfl <;> decide
      exact h.of_cons hne
  · exact h

/-- Digits lie in front of the stop character. -/
theorem endsWith_digits : EndsWith stop (cs.drop (cs.takeWhile Char.isDigit).length) := by
  have hdigit : stop.isDigit = false := by rcases hstop with rfl | rfl <;> decide
  rw [drop_takeWhile]
  exact h.dropWhile hdigit

/-- The fraction of a number lies in front of the stop character. -/
theorem endsWith_fraction : EndsWith stop (cs.drop (fractionWidth cs)) := by
  rw [fractionWidth.eq_def]
  split
  · have hne : '.' ≠ stop := by rcases hstop with rfl | rfl <;> decide
    dsimp only
    split
    · exact h
    · exact endsWith_digits (h.of_cons hne) hstop
  · exact h

theorem fractionWidth_append (t : Text) : fractionWidth (cs ++ t) = fractionWidth cs := by
  obtain ⟨c, r, rfl⟩ := List.exists_cons_of_ne_nil h.ne_nil
  by_cases hc : c = '.'
  · subst hc
    have hne : '.' ≠ stop := by rcases hstop with rfl | rfl <;> decide
    have hdigit : stop.isDigit = false := by rcases hstop with rfl | rfl <;> decide
    rw [List.cons_append, fractionWidth, (h.of_cons hne).takeWhile_append hdigit, fractionWidth]
  · rw [fractionWidth.eq_2 _ (by simpa using hc), fractionWidth.eq_2 _ (by simpa using hc)]

/-- A number ends in front of the stop character, whatever follows. -/
theorem numberWidth?_append (t : Text) : numberWidth? (cs ++ t) = numberWidth? cs := by
  have hdigit : stop.isDigit = false := by rcases hstop with rfl | rfl <;> decide
  have hsign := endsWith_sign h hstop
  have hwhole := endsWith_digits hsign hstop
  rw [List.drop_drop] at hwhole
  rw [numberWidth?, h.head?_append, hsign.drop_append, hsign.takeWhile_append hdigit,
    hwhole.drop_append, fractionWidth_append hwhole hstop, numberWidth?]

theorem endsWith_numberWidth? {width : Nat} (hwidth : numberWidth? cs = some width) :
    EndsWith stop (cs.drop width) := by
  simp only [numberWidth?, Option.ite_none_left_eq_some, Option.some.injEq] at hwidth
  obtain ⟨-, rfl⟩ := hwidth
  rw [← List.drop_drop, ← List.drop_drop]
  exact endsWith_fraction (endsWith_digits (endsWith_sign h hstop) hstop) hstop

/-- A number is read in front of the stop character, whatever follows. -/
theorem number_append (square : Bool) (t : Text) : number square (cs ++ t) = number square cs := by
  rw [number, numberWidth?_append h hstop, number]
  split
  · next width hwidth =>
      have hrest := endsWith_numberWidth? h hstop hwidth
      have hle := List.length_pos_iff.mpr hrest.ne_nil
      rw [List.length_drop] at hle
      rw [hrest.drop_append, boundary_append hrest.ne_nil, List.take_append_of_le_length (by omega)]
  · rfl

/-- The start of block parameters is read in front of the stop character, whatever
follows. -/
theorem blockParams_append (t : Text) : blockParams (cs ++ t) = blockParams cs := by
  have hspace : isTagSpace stop = false := by rcases hstop with rfl | rfl <;> decide
  have hword : stop ∉ ['a', 's'] := by rcases hstop with rfl | rfl <;> decide
  have hstart := h.isPrefixOf_append hword t
  rw [Bool.eq_iff_iff, List.isPrefixOf_iff_prefix, List.isPrefixOf_iff_prefix] at hstart
  by_cases hcs : ['a', 's'] <+: cs
  · obtain ⟨r, rfl⟩ := hcs
    have hr : EndsWith stop r := h.of_append hword
    have hbehind := hr.dropWhile hspace
    have hwidth : spaceWidth (r ++ t) = spaceWidth r := by
      rw [spaceWidth, hr.takeWhile_append hspace, spaceWidth]
    rw [← drop_takeWhile, ← spaceWidth] at hbehind
    simp only [List.cons_append, List.nil_append, blockParams, hwidth, hbehind.drop_append,
      hbehind.head?_append]
  · rw [blockParams_eq_none hcs, blockParams_eq_none (mt hstart.mp hcs)]

end Stops
end Reading
end Stache
