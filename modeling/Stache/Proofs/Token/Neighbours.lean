import Stache.Proofs.Token.Tiles

/-!
# Neighbours

What lies between a token and the next is a gap.  Behind a token that leaves no
tag open the gap is empty, unless the backslash of an escape is dropped there
(`Laid.neighbours`).
-/

namespace Stache

/-- What may be left out between two tokens outside of tags. -/
def IsGap (gap rest : Text) : Prop := gap = [] ∨ gap = ['\\'] ∧ ['{', '{'] <+: rest

variable {cut inside : Bool} {offset : Nat} {ls before after : List Lexeme} {cs : Text}
  {x y : Lexeme}

/-- The first token outside of tags. -/
theorem Laid.first (h : Laid cut false offset (y :: after) cs) :
    ∃ gap rest, cs = gap ++ rest ∧ y.span.start = offset + gap.byteLength ∧ IsGap gap rest := by
  cases h with
  | escape hstart _ => exact ⟨['\\'], _, rfl, rfl, .inr ⟨rfl, hstart⟩⟩
  | token _ _ _ => exact ⟨[], _, rfl, rfl, .inl rfl⟩

/-- The gap between a token that leaves no tag open and the next. -/
theorem Laid.neighbours (h : Laid cut inside offset ls cs) (hls : ls = before ++ x :: y :: after)
    (hx : x.token.staysInTag = false) :
    ∃ u gap rest, cs = u ++ (gap ++ rest) ∧ x.span.stop = offset + u.byteLength ∧
      y.span.start = offset + Text.byteLength (u ++ gap) ∧ IsGap gap rest := by
  induction h generalizing before with
  | stop => exact absurd hls.symm (List.append_ne_nil_of_right_ne_nil _ (List.cons_ne_nil _ _))
  | @space offset ls c cs _ _ ih =>
      obtain ⟨u, gap, rest, rfl, hstop, hstart, hgap⟩ := ih hls
      refine ⟨c :: u, gap, rest, rfl, ?_, ?_, hgap⟩
      · rw [hstop, Text.byteLength_cons, Nat.add_assoc]
      · rw [hstart, List.cons_append, Text.byteLength_cons, Nat.add_assoc]
  | @escape offset stop t cs ls _ _ ih =>
      obtain ⟨u, gap, rest, rfl, hstop, hstart, hgap⟩ := ih hls
      refine ⟨'\\' :: u, gap, rest, rfl, ?_, ?_, hgap⟩
      · rw [hstop, Text.byteLength_cons, Nat.add_assoc]
        rfl
      · rw [hstart, List.cons_append, Text.byteLength_cons, Nat.add_assoc]
        rfl
  | @token inside offset t w v ls hw ht h ih =>
      cases before with
      | nil =>
          cases hls
          rw [hx] at h
          obtain ⟨gap, rest, rfl, hstart, hgap⟩ := h.first
          refine ⟨w, gap, rest, rfl, rfl, ?_, hgap⟩
          rw [hstart, Text.byteLength_append, Nat.add_assoc]
      | cons _ before =>
          cases hls
          obtain ⟨u, gap, rest, rfl, hstop, hstart, hgap⟩ := ih rfl
          refine ⟨w ++ u, gap, rest, (List.append_assoc _ _ _).symm, ?_, ?_, hgap⟩
          · rw [hstop, Text.byteLength_append, Nat.add_assoc]
          · rw [hstart, List.append_assoc, Text.byteLength_append w, Nat.add_assoc]

/-- The tokens of a text lie in it. -/
theorem laid_tokenize (square : Bool) (text : Text) :
    Laid (tokenize square text).fault.isSome false 0 (tokenize square text).lexemes text :=
  Scanner.laid_scan square .initial text rfl

end Stache
