import Stache.Proofs.Source.Order
import Stache.Proofs.Token.InTag
import Stache.Proofs.Token.Joined

/-!
# Copies of a call

The tokens of a call in parentheses are told by its text alone.  No token in front of a `)`
looks beyond it, but a string or a name in brackets, which may end anywhere behind.  Of two
copies of a text, each with the end of such a token inside, both have it at the same place
(`readToken_unique`), so their tokens are the same, moved by what lies between
(`InTag.eq_shift`).
-/

namespace Stache
namespace Reading

open Text

variable {n : Nat} {a b a' b' : Option Reading} {q t u : Text}

/-! ## Readings that agree -/

/-- If both readings are of tokens inside a tag that lie in the first `n` characters, they are
the same. -/
def SameToken (n : Nat) (a b : Option Reading) : Prop :=
  ∀ ⦃k w k' w'⦄, a = some (.token k w) → b = some (.token k' w') → k.isInner = true →
    k'.isInner = true → w ≤ n → w' ≤ n → k = k' ∧ w = w'

/-- And if one of them does not apply, neither does the other. -/
structure Agree (n : Nat) (a b : Option Reading) : Prop where
  neither : a = none ↔ b = none
  token : SameToken n a b

theorem Agree.of_append {f : Text → Option Reading} (hf : ∀ t, f (q ++ t) = f q) :
    Agree n (f (q ++ t)) (f (q ++ u)) := by
  rw [hf, hf]
  refine ⟨Iff.rfl, fun _ _ _ _ ha hb _ _ _ _ => ?_⟩
  cases ha.symm.trans hb
  exact ⟨rfl, rfl⟩

theorem Agree.of_outer (ha : All IsOuter a) (hnone : a = none ↔ b = none) : Agree n a b := by
  refine ⟨hnone, fun _ _ _ _ htoken _ hinner _ _ _ => ?_⟩
  have houter := ha _ htoken
  rw [IsOuter, hinner] at houter
  cases houter

theorem SameToken.orElse (h : Agree n a b) (h' : SameToken n a' b') :
    SameToken n (a <|> a') (b <|> b') := by
  intro k w k' w' ha hb
  cases a with
  | none =>
      rw [h.neither.mp rfl] at hb
      exact h' ha hb
  | some x =>
      cases b with
      | none => cases h.neither.mpr rfl
      | some y => exact h.token ha hb

/-! ## Delimiters -/

theorem opener_eq_none_iff : opener q = none ↔ ¬['{', '{'] <+: q := by
  rw [opener.eq_def]
  split
  · next r =>
      refine ⟨fun hsome => ?_, fun h => absurd (List.prefix_append ['{', '{'] r) h⟩
      cases hsome
  · next h =>
      refine ⟨fun _ hstart => ?_, fun _ => rfl⟩
      obtain ⟨r, rfl⟩ := hstart
      exact h r rfl

/-- The closing braces of a tag stand there, behind a `~` or not. -/
def Closed (cs : Text) : Prop := ['}', '}'] <+: cs.drop (tildeWidth cs)

theorem closed_append (h : EndsWith ')' q) (t : Text) : Closed (q ++ t) ↔ Closed q := by
  obtain ⟨c, r, rfl⟩ := List.exists_cons_of_ne_nil h.ne_nil
  have hdrop : EndsWith ')' ((c :: r).drop (tildeWidth (c :: r))) := by
    rw [tildeWidth_cons]
    split
    · next hc =>
        subst hc
        exact h.of_cons (by decide)
    · exact h
  have hwidth : tildeWidth (c :: r ++ t) = tildeWidth (c :: r) := by
    rw [List.cons_append, tildeWidth_cons, tildeWidth_cons]
  have hstart := hdrop.isPrefixOf_append (show ')' ∉ ['}', '}'] by decide) t
  rw [Bool.eq_iff_iff, List.isPrefixOf_iff_prefix, List.isPrefixOf_iff_prefix] at hstart
  rw [Closed, hwidth, hdrop.drop_append, hstart, Closed]

theorem closer_eq_none_iff : closer q = none ↔ ¬Closed q ∧ ∀ r, q = '}' :: r → ¬Closed r := by
  have hplain : (if ['}', '}'].isPrefixOf (q.drop (tildeWidth q)) then
      some (Reading.token (.closer (q.take (tildeWidth q + 2))) (tildeWidth q + 2)) else none) =
        none ↔ ¬Closed q := by
    rw [ite_eq_right_iff, Closed, ← List.isPrefixOf_iff_prefix]
    refine ⟨fun h hstart => ?_, fun h hstart => absurd hstart h⟩
    cases h hstart
  rw [closer.eq_def]
  dsimp only
  rw [Option.or_eq_none_iff, hplain, and_comm]
  refine and_congr_right fun _ => ?_
  split
  · next r _ =>
      have hdrop : ('}' :: r).drop (1 + tildeWidth r) = r.drop (tildeWidth r) := by
        rw [Nat.add_comm]
        rfl
      rw [hdrop, ite_eq_right_iff, List.isPrefixOf_iff_prefix]
      refine ⟨fun h r' hr hclosed => ?_, fun h hclosed => absurd hclosed (h r rfl)⟩
      obtain ⟨-, rfl⟩ := List.cons.inj hr
      cases h hclosed
  · next hother => exact ⟨fun _ r hr => absurd hr (hother r), fun _ => rfl⟩

theorem agree_opener (h : EndsWith ')' q) : Agree n (opener (q ++ t)) (opener (q ++ u)) := by
  refine .of_outer ((delimiter_opener _).mono Delimiter.outer) ?_
  have hstart (t : Text) : ['{', '{'] <+: q ++ t ↔ ['{', '{'] <+: q := by
    rw [← List.isPrefixOf_iff_prefix, ← List.isPrefixOf_iff_prefix,
      h.isPrefixOf_append (by decide)]
  rw [opener_eq_none_iff, opener_eq_none_iff, hstart, hstart]

theorem agree_closer (h : EndsWith ')' q) : Agree n (closer (q ++ t)) (closer (q ++ u)) := by
  refine .of_outer ((delimiter_closer _).mono Delimiter.outer) ?_
  have hnone (t : Text) : closer (q ++ t) = none ↔ ¬Closed q ∧ ∀ r, q = '}' :: r → ¬Closed r := by
    rw [closer_eq_none_iff, closed_append h]
    refine and_congr_right fun _ => ?_
    obtain ⟨c, r, rfl⟩ := List.exists_cons_of_ne_nil h.ne_nil
    constructor
    · rintro hopen r' hr hclosed
      obtain ⟨rfl, rfl⟩ := List.cons.inj hr
      exact hopen (r ++ t) rfl ((closed_append (h.of_cons (by decide)) t).mpr hclosed)
    · rintro hopen r' hr hclosed
      obtain ⟨rfl, rfl⟩ := List.cons.inj hr
      exact hopen r rfl ((closed_append (h.of_cons (by decide)) t).mp hclosed)
  rw [hnone, hnone]

/-! ## Strings and names in brackets -/

/-- The quote that closes a string is the same one in both copies, if both have it. -/
theorem closingPlace_unique {quote : Char} {place place' : Nat} (hback : quote ≠ '\\')
    (h : (closingQuote? quote (q ++ t)).or (lastEscapedQuote? quote (q ++ t)) = some place)
    (h' : (closingQuote? quote (q ++ u)).or (lastEscapedQuote? quote (q ++ u)) = some place')
    (hlt : place < q.length) (hlt' : place' < q.length) : place = place' := by
  rcases Option.or_eq_some_iff.mp h with hclosing | ⟨hnone, hlast⟩
  · rw [closingQuote?_append hback hclosing hlt u] at h'
    exact Option.some.inj h'
  · rcases Option.or_eq_some_iff.mp h' with hclosing | ⟨-, hlast'⟩
    · rw [closingQuote?_append hback hclosing hlt' t] at hnone
      cases hnone
    · have hfirst := lastEscapedQuote?_of_append hlast hlt
      rw [lastEscapedQuote?_of_append hlast' hlt'] at hfirst
      exact (Option.some.inj hfirst).symm

theorem agree_quoted (hq : q ≠ []) : Agree q.length (quoted (q ++ t)) (quoted (q ++ u)) := by
  obtain ⟨quote, body, rfl⟩ := List.exists_cons_of_ne_nil hq
  rw [List.cons_append, List.cons_append]
  by_cases hquote : quote = '\x22' ∨ quote = '\x27'
  · have hback : quote ≠ '\\' := by rcases hquote with rfl | rfl <;> decide
    rw [quoted_cons hquote, quoted_cons hquote]
    refine ⟨by split <;> split <;> simp, fun k w k' w' htoken htoken' _ _ hw hw' => ?_⟩
    split at htoken
    · next place hplace =>
        split at htoken'
        · next place' hplace' =>
            cases htoken
            cases htoken'
            rw [List.length_cons] at hw hw'
            obtain rfl := closingPlace_unique hback hplace hplace' (by omega) (by omega)
            rw [List.take_append_of_le_length (by omega), List.take_append_of_le_length (by omega)]
            exact ⟨rfl, rfl⟩
        · cases htoken'
    · cases htoken
  · rw [quoted, if_neg hquote, quoted, if_neg hquote]
    exact ⟨Iff.rfl, fun _ _ _ _ htoken => by cases htoken⟩

theorem sameToken_bracketIdent (hq : q ≠ []) :
    SameToken q.length (bracketIdent (q ++ t)) (bracketIdent (q ++ u)) := by
  intro k w k' w' htoken htoken' _ _ hw _
  cases (bracketIdent_append htoken hw hq u).symm.trans htoken'
  exact ⟨rfl, rfl⟩

/-! ## All alternatives -/

/-- **A token in front of a `)` is told by the text up to there.**  If it lies in that text in
two places, it is the same token in both. -/
theorem readToken_unique {square afterSeparator : Bool} (h : EndsWith ')' q) :
    SameToken q.length (readToken square afterSeparator (q ++ t))
      (readToken square afterSeparator (q ++ u)) := by
  have hstop : Stops ')' := .inr rfl
  have hparen : ∀ t, fixed [')'] .parenClose (q ++ t) = fixed [')'] .parenClose q := fun t => by
    rw [fixed, isPrefixOf_append_of_le (p := [')']) h.length_le, fixed]
  unfold readToken
  refine SameToken.orElse (.of_append (fixed_append h (by decide) _)) ?_
  refine SameToken.orElse (.of_append (fixed_append h (by decide) _)) ?_
  refine SameToken.orElse (agree_opener h) ?_
  refine SameToken.orElse (agree_closer h) ?_
  refine SameToken.orElse (.of_append (fixed_append h (by decide) _)) ?_
  refine SameToken.orElse (.of_append hparen) ?_
  refine SameToken.orElse (.of_append (fixed_append h (by decide) _)) ?_
  refine SameToken.orElse (.of_append (dots_append h hstop)) ?_
  refine SameToken.orElse (agree_quoted h.ne_nil) ?_
  refine SameToken.orElse (.of_append (fixed_append h (by decide) _)) ?_
  refine SameToken.orElse (.of_append (keyword_append h (by decide) _ _)) ?_
  refine SameToken.orElse (.of_append (keyword_append h (by decide) _ _)) ?_
  refine SameToken.orElse (.of_append (keyword_append h (by decide) _ _)) ?_
  refine SameToken.orElse (.of_append (keyword_append h (by decide) _ _)) ?_
  refine SameToken.orElse (.of_append (number_append h hstop _)) ?_
  refine SameToken.orElse (.of_append (blockParams_append h hstop)) ?_
  refine SameToken.orElse (.of_append (fixed_append h (by decide) _)) ?_
  refine SameToken.orElse (.of_append (arrayDelimiter_append h _ _)) ?_
  exact SameToken.orElse (.of_append (ident_append h hstop _)) (sameToken_bracketIdent h.ne_nil)

end Reading

/-! ## The tokens of a copy -/

/-- Space in front of a character that is none is told from the text. -/
theorem spaces_unique {space space' r r' : Text} {c c' : Char}
    (hspace : space.all isTagSpace = true) (hspace' : space'.all isTagSpace = true)
    (hc : isTagSpace c = false) (hc' : isTagSpace c' = false)
    (h : space ++ c :: r = space' ++ c' :: r') : space = space' ∧ c :: r = c' :: r' := by
  have htake {space r : Text} {c : Char} (hspace : space.all isTagSpace = true)
      (hc : isTagSpace c = false) : (space ++ c :: r).takeWhile isTagSpace = space := by
    rw [List.takeWhile_append_of_pos (List.all_eq_true.mp hspace),
      List.takeWhile_cons_of_neg (by rw [hc]; exact Bool.false_ne_true), List.append_nil]
  obtain rfl : space = space' := by rw [← htake hspace hc, h, htake hspace' hc']
  exact ⟨rfl, List.append_cancel_left h⟩

/-- **The tokens of two copies of a text that ends with `)` are the same**, moved by what lies
between the copies. -/
theorem InTag.eq_shift {square after : Bool} {offset n : Nat} {cs v v' : Text}
    {ls ls' : List Lexeme} (h : InTag square v after offset cs ls)
    (h' : InTag square v' after (offset + n) cs ls') (hend : cs = [] ∨ Text.EndsWith ')' cs)
    (hinner : Inner ls) (hinner' : Inner ls') : ls' = ls.map (Lexeme.shift n) := by
  induction h generalizing ls' with
  | nil =>
      generalize htext : ([] : Text) = text at h'
      cases h' with
      | nil => rfl
      | cons => exact absurd htext (by simp)
  | @cons after offset start stop space w cs c t ls hspace hc hread hstart hstop h ih =>
      obtain ⟨ht, hmore⟩ := List.forall_mem_cons.mp hinner
      generalize htext : space ++ (c :: w ++ cs) = text at h'
      cases h' with
      | nil => exact absurd htext (by simp)
      | @cons _ _ start' stop' space' w' cs' c' t' ls' hspace' hc' hread' hstart' hstop' h' =>
          obtain ⟨ht', hmore'⟩ := List.forall_mem_cons.mp hinner'
          obtain ⟨rfl, hq⟩ := spaces_unique hspace hspace' hc hc' htext
          have hends : Text.EndsWith ')' (c :: w ++ cs) := by
            rcases hend with hnil | hend
            · exact absurd hnil (by simp)
            · exact hend.of_suffix (List.suffix_append _ _) (by simp)
          have hq' : c :: w ++ cs = c' :: w' ++ cs' := hq
          rw [← List.append_assoc] at hread hread'
          rw [← hq'] at hread'
          have hwidth : (c :: w).length ≤ (c :: w ++ cs).length := by simp
          have hwidth' : (c' :: w').length ≤ (c :: w ++ cs).length := by
            rw [hq']
            simp
          obtain ⟨rfl, hlength⟩ :=
            Reading.readToken_unique hends hread hread' ht ht' hwidth hwidth'
          obtain ⟨hw, rfl⟩ := List.append_inj hq' hlength
          obtain ⟨rfl, rfl⟩ := List.cons.inj hw
          have hmoved : start' = start + n ∧ stop' = stop + n := by omega
          obtain ⟨rfl, rfl⟩ := hmoved
          have hrest : cs = [] ∨ Text.EndsWith ')' cs := by
            by_cases hnil : cs = []
            · exact .inl hnil
            · exact .inr (hends.of_suffix (List.suffix_append _ _) hnil)
          rw [ih h' hrest hmore hmore']
          rfl

/-- A call in parentheses, with its parentheses. -/
theorem InTag.call_eq_shift {square after after' : Bool} {offset n : Nat} {cs v v' : Text}
    {ls ls' : List Lexeme} {s s' s₁ s₁' : Span}
    (h : InTag square v after offset cs (⟨.parenOpen, s⟩ :: (ls ++ [⟨.parenClose, s₁⟩])))
    (h' : InTag square v' after' (offset + n) cs
      (⟨.parenOpen, s'⟩ :: (ls' ++ [⟨.parenClose, s₁'⟩])))
    (hs : s.start = offset) (hs' : s'.start = offset + n) (hinner : Inner ls)
    (hinner' : Inner ls') : ls' ++ [⟨.parenClose, s₁'⟩] =
      List.map (Lexeme.shift n) (ls ++ [⟨.parenClose, s₁⟩]) := by
  obtain ⟨_, cs, rfl, rfl, h⟩ := h.exists_spells hs
  obtain ⟨_, cs', heq, rfl, h'⟩ := h'.exists_spells hs'
  obtain rfl := (List.cons.inj heq).2
  obtain ⟨_, front, rfl, rfl⟩ := h.exists_spells_last
  rw [Nat.add_right_comm] at h'
  exact h.eq_shift h' (.inr (List.suffix_append front [')'])) (hinner.append (.cons rfl .nil))
    (hinner'.append (.cons rfl .nil))

/-! ## The text under a copy -/

theorem endOf_shift (n : Nat) (last : Span) (ls : List Lexeme) :
    endOf (last.shift n) (ls.map (Lexeme.shift n)) = (endOf last ls).shift n := by
  induction ls generalizing last with
  | nil => rfl
  | cons l ls ih => exact ih l.span

theorem covered_shift {ls : List Lexeme} (n : Nat) (hne : ls ≠ []) :
    covered (ls.map (Lexeme.shift n)) = (covered ls).shift n := by
  obtain ⟨l, ls, rfl⟩ := List.exists_cons_of_ne_nil hne
  rw [List.map_cons, covered, covered]
  exact congrArg (Span.mk _) (congrArg Span.stop (endOf_shift n l.span ls))

/-- Tokens cover the same text in both copies. -/
theorem InTag.slice_shift {square after : Bool} {n : Nat} {u u' w v v' : Text}
    {ls own : List Lexeme} (h : InTag square v after u.byteLength w ls)
    (hcopy : u' ++ (w ++ v') = u ++ (w ++ v)) (hn : u'.byteLength = u.byteLength + n)
    (hown : own <:+: ls) :
    Text.slice (u ++ (w ++ v)) (covered (own.map (Lexeme.shift n))).start
      (covered (own.map (Lexeme.shift n))).stop =
    Text.slice (u ++ (w ++ v)) (covered own).start (covered own).stop := by
  by_cases hne : own = []
  · rw [hne, List.map_nil]
  · obtain ⟨a, m, b, rfl, hcovered⟩ := h.exists_covered hown hne
    have hslice (u v : Text) : Text.slice (u ++ (a ++ (m ++ b) ++ v)) (u.byteLength + a.byteLength)
        (u.byteLength + Text.byteLength (a ++ m)) = m := by
      have hparts := Text.slice_append (u ++ a) m (b ++ v)
      simpa only [List.append_assoc, Text.byteLength_append] using hparts
    rw [covered_shift n hne, hcovered, hslice u v, ← hcopy]
    have hmoved := hslice u' v'
    rw [hn, Nat.add_right_comm, Nat.add_right_comm _ n] at hmoved
    exact hmoved

end Stache
