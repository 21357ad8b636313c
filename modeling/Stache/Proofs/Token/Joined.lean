import Mathlib
import Stache.Proofs.Token.Closes
import Stache.Proofs.Token.Neighbours

/-!
# Texts that are joined at the end of a tag

A text whose tokens end with the end of a tag can be cut off from what follows it: the tokens
of the whole are those of the two parts, the second moved to where it stands
(`tokenize_append`).  Two facts make this up.  The moves over the first part are the same
with the second one behind it (`Closes.swap`), and what the scanner does from then on does
not depend on the offset it starts at (`scan_shift`).

The second part may not start with a brace that would join the closer in front of it, and
the first one may hold no escaped quote, since a string without a closing quote ends at the
last escaped one as long as no plain one follows anywhere in the text.
-/

namespace Stache

/-- A span moved by some bytes. -/
def Span.shift (n : Nat) (s : Span) : Span := ⟨s.start + n, s.stop + n⟩

/-- A token moved by some bytes. -/
def Lexeme.shift (n : Nat) (x : Lexeme) : Lexeme := ⟨x.token, x.span.shift n⟩

namespace Scanner

variable {square : Bool} {cs rest t : Text} {ls : List Lexeme} {s s' : State} {x : Lexeme} {n : Nat}

/-! ## Complete texts -/

/-- Where the scanner finds no token and no fault, the text is read. -/
theorem eq_nil_of_scan (hmode : s.mode ≠ .tag) (h : scan square s cs = ⟨[], none⟩) :
    cs = [] ∧ s.mode = .text := by
  have hready : Ready s false cs := by
    cases htext : s.mode with
    | text => exact ready_text htext
    | tag => exact absurd htext hmode
    | raw => exact ready_raw htext
  have hlaid := laid_scan square s cs hready
  rw [h] at hlaid
  obtain rfl : cs = [] := by
    cases hlaid with
    | stop hcut => exact hcut rfl
  refine ⟨rfl, ?_⟩
  cases htext : s.mode with
  | text => rfl
  | tag => exact absurd htext hmode
  | raw =>
      have hfailed : step square s [] = .failed ⟨.unterminatedRawBlock, s.rawStart, s.offset⟩ := by
        rw [step, htext]
        dsimp only
        rw [rawStep, rawBody?_nil]
        rfl
      cases h.symm.trans (scan_of_failed hfailed)

/-- If the last token of a text that is read in full ends a tag, the scanner's way leads to the
end of the text and it is between tags there. -/
theorem exists_closes (square : Bool) (s : State) (cs : Text)
    (h : (scan square s cs).fault = none)
    (hx : (scan square s cs).lexemes.getLast? = some x) (hend : x.token.endsTag = true) :
    ∃ s', Closes square s' [] s cs (scan square s cs).lexemes ∧ s'.mode = .text := by
  cases hstep : step square s cs with
  | finished =>
      rw [scan_of_finished hstep] at hx
      cases hx
  | failed fault =>
      rw [scan_of_failed hstep] at h
      cases h
  | moved ls s₁ rest =>
      rw [scan_of_step hstep] at h hx ⊢
      dsimp only [Lexing.prepend] at h hx ⊢
      cases hlast : (scan square s₁ rest).lexemes.getLast? with
      | none =>
          have hnone := List.getLast?_eq_none_iff.mp hlast
          rw [hnone, List.append_nil] at hx ⊢
          obtain ⟨before, rfl⟩ := List.getLast?_eq_some_iff.mp hx
          have hdone : scan square s₁ rest = ⟨[], none⟩ := by
            rw [← hnone, ← h]
          obtain ⟨rfl, htext⟩ := eq_nil_of_scan (mode_of_step hstep hend).1 hdone
          exact ⟨s₁, .last hstep hend, htext⟩
      | some y =>
          rw [List.getLast?_append, hlast, Option.some_or] at hx
          obtain ⟨s', hcloses, htext⟩ := exists_closes square s₁ rest h (hlast.trans hx) hend
          exact ⟨s', .more hstep hcloses, htext⟩
termination_by measure s cs
decreasing_by exact step_measure ‹_›

/-! ## Other offsets -/

/-- Two states of the scanner that differ in their place only. -/
structure State.Apart (n : Nat) (s s' : State) : Prop where
  mode : s'.mode = s.mode
  offset : s'.offset = s.offset + n
  afterSeparator : s'.afterSeparator = s.afterSeparator

theorem contentLexeme_shift (n : Nat) (t : Text) (start stop : Nat) :
    contentLexeme t (start + n) (stop + n) = (contentLexeme t start stop).map (Lexeme.shift n) := by
  unfold contentLexeme
  split <;> rfl

theorem lexeme_shift (n : Nat) (t : Token) (start stop : Nat) :
    [⟨t, ⟨start + n, stop + n⟩⟩] = [(⟨t, ⟨start, stop⟩⟩ : Lexeme)].map (Lexeme.shift n) := rfl

/-- Two moves of the same tokens, in two places. -/
inductive Step.Shifted (n : Nat) : Step → Step → Prop where
  | finished : Shifted n .finished .finished
  | failed {f f' : Fault} (h : f'.kind = f.kind) : Shifted n (.failed f) (.failed f')
  | moved {ls : List Lexeme} {s s' : State} {rest : Text} (h : State.Apart n s s') :
      Shifted n (.moved ls s rest) (.moved (ls.map (Lexeme.shift n)) s' rest)

theorem textStep_shift (h : State.Apart n s s') (cs : Text) :
    Step.Shifted n (textStep s cs) (textStep s' cs) := by
  rw [textStep, textStep]
  generalize Text.splitBefore startsTag cs = parts
  obtain ⟨front, rest⟩ := parts
  simp only [h.offset, Nat.add_right_comm _ n, contentLexeme_shift, ← List.map_append]
  split
  · split
    · exact .finished
    · exact .moved ⟨h.mode, rfl, h.afterSeparator⟩
  · split
    · exact .moved ⟨rfl, rfl, h.afterSeparator⟩
    · split
      · exact .moved ⟨h.mode, rfl, h.afterSeparator⟩
      · exact .moved ⟨rfl, rfl, h.afterSeparator⟩

theorem tagStep_shift (h : State.Apart n s s') (square : Bool) (cs : Text) :
    Step.Shifted n (tagStep square s cs) (tagStep square s' cs) := by
  rw [tagStep, tagStep, h.afterSeparator, h.offset]
  dsimp only
  split
  · exact .finished
  · split
    · exact .failed rfl
    · exact .failed rfl
    · exact .failed rfl
    · simp only [Nat.add_right_comm _ n]
      exact .moved ⟨rfl, rfl, rfl⟩

theorem rawStep_shift (h : State.Apart n s s') (cs : Text) :
    Step.Shifted n (rawStep s cs) (rawStep s' cs) := by
  rw [rawStep, rawStep]
  split
  · exact .failed rfl
  · simp only [h.offset, Nat.add_right_comm _ n, contentLexeme_shift, lexeme_shift,
      ← List.map_append]
    exact .moved ⟨rfl, rfl, rfl⟩

/-- A move is the same in another place. -/
theorem step_shift (h : State.Apart n s s') (square : Bool) (cs : Text) :
    Step.Shifted n (step square s cs) (step square s' cs) := by
  rw [step, step, h.mode]
  split
  · exact textStep_shift h cs
  · exact tagStep_shift h square cs
  · exact rawStep_shift h cs

/-- The scanner reads the same tokens in another place. -/
theorem scan_shift (square : Bool) (s s' : State) (cs : Text) (h : State.Apart n s s') :
    (scan square s' cs).lexemes = (scan square s cs).lexemes.map (Lexeme.shift n) ∧
      (scan square s' cs).fault.map Fault.kind = (scan square s cs).fault.map Fault.kind := by
  have hshift := step_shift h square cs
  cases hstep : step square s cs with
  | finished =>
      rw [hstep] at hshift
      generalize hstep' : step square s' cs = move at hshift
      cases hshift
      rw [scan_of_finished hstep, scan_of_finished hstep']
      exact ⟨rfl, rfl⟩
  | failed fault =>
      rw [hstep] at hshift
      generalize hstep' : step square s' cs = move at hshift
      cases hshift with
      | failed hkind =>
          rw [scan_of_failed hstep, scan_of_failed hstep']
          exact ⟨rfl, congrArg some hkind⟩
  | moved ls s₁ rest =>
      rw [hstep] at hshift
      generalize hstep' : step square s' cs = move at hshift
      cases hshift with
      | moved hapart =>
          obtain ⟨hlexemes, hfault⟩ := scan_shift square s₁ _ rest hapart
          rw [scan_of_step hstep, scan_of_step hstep']
          refine ⟨?_, hfault⟩
          rw [Lexing.prepend, Lexing.prepend, List.map_append, hlexemes]
termination_by measure s cs
decreasing_by exact step_measure ‹_›

end Scanner

/-! ## Joined texts -/

/-- **A text that ends with a tag is read apart from what follows it.**  The text holds no
quote right behind a backslash, and what follows it does not start with a brace that would
join its last closer.  The tokens of the whole are those of the two parts, and the fault is
that of the second. -/
theorem tokenize_append {square : Bool} {s t : Text} (hs : (tokenize square s).fault = none)
    (hend : s = [] ∨ ∃ x, (tokenize square s).lexemes.getLast? = some x ∧
      x.token.endsTag = true ∧ x.span.stop = s.byteLength)
    (hquote : ∀ quote, quote = '\x22' ∨ quote = '\x27' → ¬['\\', quote] <:+: s)
    (ht : t.head? ≠ some '}') :
    (tokenize square (s ++ t)).lexemes =
        (tokenize square s).lexemes ++
          (tokenize square t).lexemes.map (Lexeme.shift s.byteLength) ∧
      (tokenize square (s ++ t)).fault.map (fun f => f.kind.code) =
        (tokenize square t).fault.map fun f => f.kind.code := by
  have hcode (l l' : Lexing) (h : l.fault.map Fault.kind = l'.fault.map Fault.kind) :
      l.fault.map (fun f => f.kind.code) = l'.fault.map fun f => f.kind.code := by
    have h := congrArg (Option.map FaultKind.code) h
    rwa [Option.map_map, Option.map_map] at h
  rcases hend with rfl | ⟨x, hx, hend, -⟩
  · obtain ⟨hlexemes, hfault⟩ :=
      Scanner.scan_shift (n := 0) square .initial .initial t ⟨rfl, rfl, rfl⟩
    have hnil : tokenize square [] = ⟨[], none⟩ := Scanner.scan_of_finished rfl
    rw [hnil]
    exact ⟨hlexemes, hcode _ _ hfault⟩
  · obtain ⟨s', hcloses, htext⟩ := Scanner.exists_closes square .initial s hs hx hend
    rw [← List.append_nil s] at hcloses
    have hjoined := hcloses.swap (.extend rfl ht hquote)
    obtain ⟨w, hw, -, hoffset⟩ := hjoined.exists_append
    obtain rfl : s = w := List.append_cancel_right hw
    have hscan := hjoined.scan_eq
    obtain ⟨hlexemes, hfault⟩ := Scanner.scan_shift (n := s.byteLength) square .initial s' t
      ⟨htext, hoffset, hjoined.mode.2⟩
    rw [List.append_nil] at hscan
    rw [tokenize, hscan]
    refine ⟨?_, hcode _ _ hfault⟩
    rw [Lexing.prepend, hlexemes]
    rfl

/-- The text `{{a "b"}}{{!c}}`. -/
def stringTemplate : Text := "\x7b\x7ba \x22b\x22\x7d\x7d\x7b\x7b!c\x7d\x7d".toList

/-- A text in front of a comment without its end. -/
theorem tokenize_stringTemplate :
    (tokenize false stringTemplate).fault = none ∧
      (∃ x, (tokenize false stringTemplate).lexemes.getLast? = some x ∧
        x.token.endsTag = true ∧ x.span.stop = stringTemplate.byteLength) ∧
      (∀ quote, quote = '\x22' ∨ quote = '\x27' → ¬['\\', quote] <:+: stringTemplate) ∧
      (tokenize false (stringTemplate ++ ['é', '{', '{', '!'])).lexemes =
        (tokenize false stringTemplate).lexemes ++
          (tokenize false ['é', '{', '{', '!']).lexemes.map
            (Lexeme.shift stringTemplate.byteLength) ∧
      (tokenize false (stringTemplate ++ ['é', '{', '{', '!'])).fault.map (fun f => f.kind.code) =
        (tokenize false ['é', '{', '{', '!']).fault.map fun f => f.kind.code := by
  have hs : (tokenize false stringTemplate).fault = none := by cbv
  have hend : ∃ x, (tokenize false stringTemplate).lexemes.getLast? = some x ∧
      x.token.endsTag = true ∧ x.span.stop = stringTemplate.byteLength :=
    ⟨⟨.comment "\x7b\x7b!c\x7d\x7d".toList, ⟨9, 15⟩⟩, by cbv, rfl, by cbv⟩
  have hquote : ∀ quote, quote = '\x22' ∨ quote = '\x27' →
      ¬['\\', quote] <:+: stringTemplate := fun quote _ hwithin => by
    have hnot : '\\' ∉ stringTemplate := by decide
    exact hnot (hwithin.mem List.mem_cons_self)
  exact ⟨hs, hend, hquote, tokenize_append hs (.inr hend) hquote (by decide)⟩

end Stache
