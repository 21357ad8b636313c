import Stache.Proofs.Token.Local
import Stache.Proofs.Token.Widths

/-!
# Reading in front of the end of a tag

A token inside a tag is read from the rest of the whole text, and some alternatives look
ahead without bound.  Still no token reads past the end of its tag: as long as the tag ends
with the text `cs`, so with `}}`, what is read in `cs ++ t` is also read in `cs ++ u`.

The alternatives that may look past the `}}` are the closers, which take one brace more if
it is there, and strings, comments and bracketed names, whose end may lie anywhere behind.
They set the terms on which `u` may stand in place of `t` (`Swap`): either `u` is a start
of `t`, or the text ended with `cs`.  In the second case a third brace could join the
closer, and a string that only an escaped quote closes could find a plain one.

`readToken_swap` puts the alternatives together.
-/

namespace Stache
namespace Reading

open Text

variable {cs t u : Text}

/-! ## Strings and brackets -/

section Quotes

variable {quote : Char} {v z : Text} {place width : Nat}

/-- The closing quote is found without what stands behind it. -/
theorem closingQuote?_take (hquote : quote ≠ '\\') (h : closingQuote? quote v = some place)
    (z : Text) : closingQuote? quote (v.take (place + 1) ++ z) = some place := by
  fun_induction closingQuote? quote v generalizing place with
  | case1 => cases h
  | case2 =>
      cases h
      cases z <;> simp [closingQuote?, hquote]
  | case3 => cases h
  | case4 c d r hesc ih =>
      obtain ⟨n, hn, rfl⟩ := Option.map_eq_some_iff.mp h
      simp [closingQuote?, hesc, ih hn]
  | case5 d r hesc =>
      cases h
      cases z <;> simp [closingQuote?, hquote]
  | case6 c d r hesc hc ih =>
      obtain ⟨n, hn, rfl⟩ := Option.map_eq_some_iff.mp h
      have hrest := ih hn
      rw [List.take_succ_cons] at hrest ⊢
      rw [List.take_succ_cons, List.cons_append, List.cons_append, closingQuote?, if_neg hesc,
        if_neg hc, ← List.cons_append, hrest]
      rfl

theorem closingQuote?_append (hquote : quote ≠ '\\') {b t : Text}
    (h : closingQuote? quote (b ++ t) = some place) (hlt : place < b.length) (u : Text) :
    closingQuote? quote (b ++ u) = some place := by
  have htake := closingQuote?_take hquote h (b.drop (place + 1) ++ u)
  rwa [List.take_append_of_le_length hlt, ← List.append_assoc, List.take_append_drop] at htake

theorem closingQuote?_eq_none (hquote : quote ≠ '\\') (h : closingQuote? quote v = none)
    (hz : z <+: v) : closingQuote? quote z = none := by
  obtain ⟨more, rfl⟩ := hz
  rw [Option.eq_none_iff_forall_ne_some] at h ⊢
  intro place hplace
  refine h place ?_
  have htake := closingQuote?_take hquote hplace (z.drop (place + 1) ++ more)
  rwa [← List.append_assoc, List.take_append_drop] at htake

theorem lastEscapedQuote?_append (h : lastEscapedQuote? quote v = some place) (z : Text) :
    (lastEscapedQuote? quote (v ++ z)).isSome = true := by
  fun_induction lastEscapedQuote? quote v generalizing place with
  | case1 | case2 => cases h
  | case3 c d r hesc => simp [lastEscapedQuote?, hesc]
  | case4 c d r hesc ih =>
      obtain ⟨n, hn, -⟩ := Option.map_eq_some_iff.mp h
      rw [List.cons_append, List.cons_append, lastEscapedQuote?, if_neg hesc, Option.isSome_map,
        ← List.cons_append]
      exact ih hn

/-- An escaped quote that is the last of a text is the last of its start that holds it. -/
theorem lastEscapedQuote?_of_append (h : lastEscapedQuote? quote (v ++ z) = some place)
    (hlt : place < v.length) : lastEscapedQuote? quote v = some place := by
  fun_induction lastEscapedQuote? quote v generalizing place with
  | case1 => cases hlt
  | case2 c =>
      obtain rfl : place = 0 := by simpa using hlt
      cases z with
      | nil => cases h
      | cons d r =>
          rw [List.singleton_append, lastEscapedQuote?] at h
          split at h
          · cases hlast : lastEscapedQuote? quote r <;> simp [hlast] at h
          · simp at h
  | case3 c d r hesc ih =>
      rw [List.cons_append, List.cons_append, lastEscapedQuote?, if_pos hesc] at h
      cases hlast : lastEscapedQuote? quote (r ++ z) with
      | none =>
          have hnone : lastEscapedQuote? quote r = none := by
            refine Option.eq_none_iff_forall_ne_some.mpr fun n hn => ?_
            have hsome := lastEscapedQuote?_append hn z
            rw [hlast] at hsome
            cases hsome
          rw [hlast] at h
          cases h
          rw [hnone]
      | some n =>
          rw [hlast] at h
          cases h
          have hlt : n + 2 < r.length + 2 := hlt
          rw [ih hlast (by omega)]
  | case4 c d r hesc ih =>
      rw [List.cons_append, List.cons_append, lastEscapedQuote?, if_neg hesc] at h
      obtain ⟨n, hn, rfl⟩ := Option.map_eq_some_iff.mp h
      rw [List.length_cons] at hlt
      rw [ih hn (by omega)]
      rfl

/-- An escaped quote stands behind a backslash. -/
theorem infix_of_lastEscapedQuote? (h : lastEscapedQuote? quote v = some place) :
    ['\\', quote] <:+: v := by
  fun_induction lastEscapedQuote? quote v generalizing place with
  | case1 | case2 => cases h
  | case3 c d r hesc => 
      obtain ⟨rfl, rfl⟩ := hesc
      exact (List.prefix_append ['\\', d] r).isInfix
  | case4 c d r hesc ih =>
      obtain ⟨n, hn, -⟩ := Option.map_eq_some_iff.mp h
      exact (ih hn).trans (List.suffix_cons c (d :: r)).isInfix

theorem bracketWidth?_pos (h : bracketWidth? v = some width) : 0 < width := by
  fun_induction bracketWidth? v generalizing width with
  | case1 => cases h
  | case2 => cases h; decide
  | case3 r ih =>
      obtain ⟨n, -, rfl⟩ := Option.map_eq_some_iff.mp h
      omega
  | case4 c r hc hesc ih =>
      obtain ⟨n, -, rfl⟩ := Option.map_eq_some_iff.mp h
      omega

/-- The closing bracket is found without what stands behind it. -/
theorem bracketWidth?_take (h : bracketWidth? v = some width) (z : Text) :
    bracketWidth? (v.take width ++ z) = some width := by
  fun_induction bracketWidth? v generalizing width with
  | case1 => cases h
  | case2 => cases h; simp [bracketWidth?]
  | case3 r ih =>
      obtain ⟨n, hn, rfl⟩ := Option.map_eq_some_iff.mp h
      simp [bracketWidth?, ih hn]
  | case4 c r hc hesc ih =>
      obtain ⟨n, hn, rfl⟩ := Option.map_eq_some_iff.mp h
      have hesc' : ∀ more, c = '\\' → r.take n ++ z = ']' :: more → False := by
        intro more hback hstart
        obtain ⟨m, rfl⟩ := Nat.exists_eq_add_of_lt (bracketWidth?_pos hn)
        cases r with
        | nil => cases hn
        | cons d r =>
            rw [Nat.zero_add, List.take_succ_cons, List.cons_append] at hstart
            exact hesc r hback (by rw [(List.cons.inj hstart).1])
      rw [List.take_succ_cons, List.cons_append, bracketWidth?.eq_4 _ _ hc hesc', ih hn]
      rfl

end Quotes
end Reading

/-! ## Texts that may stand behind a tag -/

/-- Behind `cs`, `u` may stand in place of `t`: it is a start of `t`, or `cs` was the end of
the text, `u` does not go on with `}` and no quote in `cs` is escaped. -/
inductive Swap (cs t u : Text) : Prop where
  | cut (h : u <+: t)
  | extend (ht : t = []) (hu : u.head? ≠ some '}')
      (hcs : ∀ quote, quote = '\x22' ∨ quote = '\x27' → ¬['\\', quote] <:+: cs)

namespace Swap

variable {cs k t u w : Text}

theorem of_suffix (h : Swap cs t u) (hk : k <:+ cs) : Swap k t u := by
  cases h with
  | cut h => exact .cut h
  | extend ht hu hcs => exact .extend ht hu fun q hq hk' => hcs q hq (hk'.trans hk.isInfix)

/-- Braces that stand there with the new text stand there with the old one. -/
theorem isPrefix (h : Swap cs t u) (hw : ∀ c ∈ w, c = '}') (hstart : w <+: cs ++ u) :
    w <+: cs ++ t := by
  cases h with
  | cut h => exact hstart.trans ((List.prefix_append_right_inj cs).mpr h)
  | extend ht hu hcs =>
      rcases Nat.le_total w.length cs.length with hlen | hlen
      · exact (List.prefix_of_prefix_length_le hstart (List.prefix_append cs u) hlen).trans
          (List.prefix_append cs t)
      · obtain ⟨w', rfl⟩ := List.prefix_of_prefix_length_le (List.prefix_append cs u) hstart hlen
        cases w' with
        | nil => exact (List.prefix_append_right_inj cs).mpr List.nil_prefix
        | cons c w' =>
            obtain ⟨v, rfl⟩ := (List.prefix_append_right_inj cs).mp hstart
            exact absurd (congrArg some (hw c (by simp))) hu

end Swap

namespace Reading

open Text

variable {cs t u : Text}

/-- The reading `b` of a text may be had from the reading `a` of a text with the same first `n`
characters. -/
structure Kept (n : Nat) (a b : Option Reading) : Prop where
  none : a = none → b = none
  token : ∀ {k w}, a = some (.token k w) → w ≤ n → b = some (.token k w)

theorem Kept.of_append {n : Nat} {a : Text → Option Reading}
    (ha : ∀ t, a (cs ++ t) = a cs) : Kept n (a (cs ++ t)) (a (cs ++ u)) := by
  rw [ha, ha]
  exact ⟨id, fun htoken _ => htoken⟩

/-- The first alternative that applies is the same one. -/
theorem Kept.orElse {n w : Nat} {k : Token} {a b a' b' : Option Reading} (h : Kept n a b)
    (hw : w ≤ n) (h' : a' = some (.token k w) → b' = some (.token k w))
    (htoken : (a <|> a') = some (.token k w)) : (b <|> b') = some (.token k w) := by
  cases a with
  | none =>
      rw [h.none rfl]
      exact h' htoken
  | some x =>
      rw [h.token htoken hw]
      rfl

theorem kept_rawCloser (h : Swap cs t u) :
    Kept cs.length (fixed ['}', '}', '}', '}'] .rawCloser (cs ++ t))
      (fixed ['}', '}', '}', '}'] .rawCloser (cs ++ u)) where
  none hnone := by
    simp only [fixed, ite_eq_right_iff, reduceCtorEq, imp_false, List.isPrefixOf_iff_prefix]
      at hnone ⊢
    exact fun hstart => hnone (h.isPrefix (by simp) hstart)
  token htoken hw := by
    simp only [fixed, Option.ite_none_right_eq_some, Option.some.injEq, token.injEq] at htoken ⊢
    obtain ⟨hstart, rfl, rfl⟩ := htoken
    rw [isPrefixOf_append_of_le hw] at hstart ⊢
    exact ⟨hstart, rfl, rfl⟩

theorem closer_append (h : EndsTag cs) (hcs : cs ≠ ['}', '}']) (t : Text) :
    closer (cs ++ t) = closer cs := by
  obtain ⟨c, d, r, rfl⟩ := h.exists_cons
  by_cases hc : c = '}'
  · subst hc
    by_cases hd : d = '~'
    · subst hd
      have hr : EndsTag r := by
        rcases List.suffix_cons_iff.mp h with heq | h
        · cases heq
        · exact EndsTag.of_cons h (by decide)
      obtain ⟨e, f, r, rfl⟩ := hr.exists_cons
      simp [closer, tildeWidth_cons]
    · cases r with
      | nil =>
          exact absurd (h.eq_of_length rfl).symm hcs
      | cons e r => simp [closer, tildeWidth_cons, hd]
  · by_cases hc' : c = '~'
    · subst hc'
      obtain ⟨d, e, r, hcons⟩ := (h.of_cons hc).exists_cons
      cases hcons
      simp [closer, tildeWidth_cons]
    · simp [closer, tildeWidth_cons, hc, hc']

/-- A `}}` is read as such unless a third brace follows. -/
theorem closer_braces (t : Text) : closer ('}' :: '}' :: t) =
    if t.head? = some '}' then some (.token (.unescapedCloser ['}', '}', '}']) 3)
    else some (.token (.closer ['}', '}']) 2) := by
  cases t with
  | nil => rfl
  | cons c t =>
      by_cases hc : c = '}'
      · subst hc
        rfl
      · simp [closer, tildeWidth_cons, hc, Ne.symm hc]

theorem kept_closer (hcs : EndsTag cs) (h : Swap cs t u) :
    Kept cs.length (closer (cs ++ t)) (closer (cs ++ u)) := by
  by_cases hshort : cs = ['}', '}']
  · subst hshort
    have hX := closer_braces t
    have hY := closer_braces u
    split at hX
    · refine ⟨fun hnone => ?_, fun htoken hw => ?_⟩
      · cases hnone.symm.trans hX
      · cases htoken.symm.trans hX
        exact absurd hw (by decide)
    · next hbrace =>
        have hbrace' : u.head? ≠ some '}' := by
          intro hu
          obtain ⟨v, rfl⟩ := List.head?_eq_some_iff.mp hu
          obtain ⟨z, hz⟩ := h.isPrefix (w := ['}', '}', '}']) (by simp) ⟨v, rfl⟩
          obtain rfl : '}' :: z = t := by simpa using hz
          exact hbrace rfl
        rw [if_neg hbrace'] at hY
        rw [List.cons_append, List.cons_append, List.nil_append, hX, List.cons_append,
          List.cons_append, List.nil_append, hY]
        exact ⟨id, fun htoken _ => htoken⟩
  · exact .of_append (closer_append hcs hshort)

/-- Where a quote closes a string that lies in `cs`, it does so with another text behind `cs`. -/
theorem closingPlace_append {quote : Char} {place : Nat} (hquote : quote = '\x22' ∨ quote = '\x27')
    (h : Swap cs t u) (hlt : place < cs.length)
    (hplace : (closingQuote? quote (cs ++ t)).or (lastEscapedQuote? quote (cs ++ t)) = some place) :
    (closingQuote? quote (cs ++ u)).or (lastEscapedQuote? quote (cs ++ u)) = some place := by
  have hback : quote ≠ '\\' := by rcases hquote with rfl | rfl <;> decide
  rcases Option.or_eq_some_iff.mp hplace with hclosing | ⟨hnone, hlast⟩
  · rw [closingQuote?_append hback hclosing hlt u]
    rfl
  · cases h with
    | cut hu =>
        have hstart : cs ++ u <+: cs ++ t := (List.prefix_append_right_inj cs).mpr hu
        obtain ⟨z, hz⟩ := hstart
        rw [closingQuote?_eq_none hback hnone ⟨z, hz⟩, Option.none_or]
        rw [← hz] at hlast
        exact lastEscapedQuote?_of_append hlast
          (Nat.lt_of_lt_of_le hlt (by rw [List.length_append]; exact Nat.le_add_right _ _))
    | extend ht _ hcs =>
        rw [ht, List.append_nil] at hlast
        exact absurd (infix_of_lastEscapedQuote? hlast) (hcs quote hquote)

theorem quoted_cons {quote : Char} (hquote : quote = '\x22' ∨ quote = '\x27') (v : Text) :
    quoted (quote :: v) =
      match (closingQuote? quote v).or (lastEscapedQuote? quote v) with
      | some place => some (.token (.string (unescapeQuote quote (v.take place))) (place + 2))
      | none => some .unterminatedString := by
  rw [quoted, if_pos hquote]
  cases (closingQuote? quote v).or (lastEscapedQuote? quote v) <;> rfl

theorem kept_quoted (h : Swap cs t u) (hcs : cs ≠ []) :
    Kept cs.length (quoted (cs ++ t)) (quoted (cs ++ u)) := by
  obtain ⟨quote, body, rfl⟩ := List.exists_cons_of_ne_nil hcs
  rw [List.cons_append, List.cons_append]
  by_cases hquote : quote = '\x22' ∨ quote = '\x27'
  · rw [quoted_cons hquote, quoted_cons hquote]
    split
    · next place hplace =>
        refine ⟨nofun, fun htoken hw => ?_⟩
        cases htoken
        have hlt : place < body.length := by rw [List.length_cons] at hw; omega
        rw [closingPlace_append hquote (h.of_suffix (List.suffix_cons _ _)) hlt hplace]
        dsimp only
        rw [List.take_append_of_le_length (Nat.le_of_lt hlt),
          List.take_append_of_le_length (Nat.le_of_lt hlt)]
    · exact ⟨nofun, nofun⟩
  · rw [quoted, if_neg hquote, quoted, if_neg hquote]
    exact ⟨id, nofun⟩

theorem bracketIdent_append {k : Token} {w : Nat}
    (htoken : bracketIdent (cs ++ t) = some (.token k w)) (hw : w ≤ cs.length) (hcs : cs ≠ [])
    (u : Text) : bracketIdent (cs ++ u) = some (.token k w) := by
  obtain ⟨c, body, rfl⟩ := List.exists_cons_of_ne_nil hcs
  rw [List.cons_append] at htoken ⊢
  unfold bracketIdent at htoken ⊢
  split at htoken
  · next r heq =>
      cases heq
      obtain ⟨width, hwidth, hread⟩ := Option.map_eq_some_iff.mp htoken
      cases hread
      have hle : width ≤ body.length := by simpa using hw
      have htake := bracketWidth?_take hwidth (body.drop width ++ u)
      rw [List.take_append_of_le_length hle, ← List.append_assoc, List.take_append_drop] at htake
      change Option.map _ (bracketWidth? (body ++ u)) = _
      rw [htake, Option.map_some, List.take_succ_cons, List.take_succ_cons,
        List.take_append_of_le_length hle, List.take_append_of_le_length hle]
  · cases htoken

/-! ## Delimiters -/

theorem two_le_of_endOfFirst {mark : Text → Option Nat}
    (htwo : ∀ {v n}, mark v = some n → 2 ≤ n) {n : Nat} (h : Text.endOfFirst mark cs = some n) :
    2 ≤ n := by
  induction cs generalizing n with
  | nil => cases h
  | cons c r ih =>
      rw [Text.endOfFirst] at h
      split at h
      · next hwidth =>
          cases h
          exact htwo hwidth
      · obtain ⟨m, hm, rfl⟩ := Option.map_eq_some_iff.mp h
        exact Nat.le_succ_of_le (ih hm)

/-- A mark that is found in front of the end of a tag is found with another text behind it. -/
theorem endOfFirst_append {mark : Text → Option Nat}
    (hmark : ∀ {v}, EndsTag v → ∀ t, mark (v ++ t) = mark v)
    (htwo : ∀ {v n}, mark v = some n → 2 ≤ n) {n : Nat} (hcs : EndsTag cs)
    (h : Text.endOfFirst mark (cs ++ t) = some n) (hle : n ≤ cs.length) (u : Text) :
    Text.endOfFirst mark (cs ++ u) = some n := by
  induction cs generalizing n with
  | nil => exact absurd rfl hcs.ne_nil
  | cons c r ih =>
      have hmarks : mark (c :: (r ++ u)) = mark (c :: (r ++ t)) :=
        (hmark hcs u).trans (hmark hcs t).symm
      rw [List.cons_append, Text.endOfFirst] at h ⊢
      rw [hmarks]
      split at h
      · next hwidth => rw [hwidth]; exact h
      · next hnone =>
          rw [hnone]
          obtain ⟨m, hm, rfl⟩ := Option.map_eq_some_iff.mp h
          have hlen : m ≤ r.length := Nat.le_of_succ_le_succ hle
          rcases List.suffix_cons_iff.mp hcs with heq | hr
          · cases heq
            exact absurd (two_le_of_endOfFirst htwo hm) (Nat.not_le_of_lt (Nat.lt_succ_of_le hlen))
          · dsimp only
            rw [ih hr hm hlen]
            rfl

theorem commentWidth?_append {n : Nat} (hcs : EndsTag cs) (h : commentWidth? (cs ++ t) = some n)
    (hle : n ≤ cs.length) (u : Text) : commentWidth? (cs ++ u) = some n := by
  have hdash (t : Text) : ['-', '-'].isPrefixOf (cs ++ t) = ['-', '-'].isPrefixOf cs :=
    isPrefixOf_append_of_le (p := ['-', '-']) hcs.two_le t
  rw [commentWidth?, hdash] at h ⊢
  split at h
  · next hdash =>
      rw [if_pos hdash]
      refine endOfFirst_append (fun {v} hv t => ?_) (fun {v n} hv => ?_) hcs h hle u
      · have hshort := hv.isPrefixOf_append_braces (w := ['-', '-']) (by decide) t
        have hlong := hv.isPrefixOf_append_braces (w := ['-', '-', '~']) (by decide) t
        simp only [List.cons_append, List.nil_append] at hshort hlong
        rw [hshort, hlong]
      · grind
  · next hdash =>
      rw [if_neg hdash]
      refine endOfFirst_append (fun {v} hv t => ?_) (fun {v n} hv => ?_) hcs h hle u
      · rw [isPrefixOf_append_of_le (p := ['}', '}']) hv.two_le]
      · grind

/-- The text of a delimiter is all it has of the text it stands in. -/
theorem openerAt_of_take {X Y r : Text} {width n : Nat} {k : Token}
    (h : openerAt X width r = .token k n) (htake : X.take n = Y.take n) :
    openerAt Y width r = .token k n := by
  unfold openerAt at h ⊢
  simp only at h ⊢
  split at h <;> try (cases h; rw [htake])
  split at h
  · cases h
    rw [htake]
  · split at h <;> try (cases h; rw [htake])
    split at h
    · cases h
      rw [htake]
    · cases h

/-- A delimiter is told by the two characters behind its `{{`, the width of an else tag and
the end of a comment there. -/
theorem openerAt_congr {X v v' : Text} {width : Nat} {c d : Char}
    (helse : elseTagWidth? (c :: d :: v) = elseTagWidth? (c :: d :: v'))
    (hchain : chainWidth? (c :: d :: v) = chainWidth? (c :: d :: v'))
    (hcomment : c = '!' → commentWidth? (d :: v) = commentWidth? (d :: v')) :
    openerAt X width (c :: d :: v) = openerAt X width (c :: d :: v') := by
  unfold openerAt
  simp only [helse, hchain]
  generalize elseTagWidth? (c :: d :: v') = else?
  generalize chainWidth? (c :: d :: v') = chain?
  by_cases hc : c = '#'
  · subst hc
    by_cases hd : d = '>' <;> by_cases hd' : d = '*' <;> simp [hd, hd']
  · cases else? with
    | some _ => by_cases h1 : c = '>' <;> by_cases h2 : c = '/' <;> simp [h1, h2, hc]
    | none =>
        cases chain? with
        | some _ =>
            by_cases h1 : c = '>' <;> by_cases h2 : c = '/' <;> by_cases h3 : c = '^' <;>
              simp [h1, h2, h3, hc]
        | none =>
            by_cases hmark : c = '!'
            · subst hmark
              simp [hcomment rfl]
            by_cases hinclusion : c = '>'
            · simp [hinclusion]
            by_cases hclose : c = '/'
            · simp [hclose]
            by_cases hinverse : c = '^'
            · simp [hinverse]
            by_cases hbrace : c = '{'
            · simp [hbrace]
            by_cases hamp : c = '&'
            · simp [hamp]
            by_cases hstar : c = '*'
            · simp [hstar]
            · simp [hc, hmark, hinclusion, hclose, hinverse, hbrace, hamp, hstar]

/-- The delimiter of a comment is the whole comment. -/
theorem openerAt_comment (X body : Text) (width : Nat) :
    openerAt X width ('!' :: body) =
      match commentWidth? body with
      | some more => .token (.comment (X.take (width + 1 + more))) (width + 1 + more)
      | none => .unterminatedComment := by
  have helse : elseWidth? ('!' :: body) = none := by
    simp [elseWidth?, spaceWidth, isTagSpace]
  cases hcomment : commentWidth? body <;>
    simp [openerAt, elseTagWidth?, chainWidth?, helse, hcomment]

theorem openerAt_append {w : Text} {k : Token} {n : Nat} (hcs : EndsTag cs)
    (h : openerAt (w ++ cs ++ t) w.length (cs ++ t) = .token k n)
    (hle : n ≤ (w ++ cs).length) (u : Text) :
    openerAt (w ++ cs ++ u) w.length (cs ++ u) = .token k n := by
  refine openerAt_of_take (X := w ++ cs ++ t) ?_ ?_
  · obtain ⟨c, d, r, rfl⟩ := hcs.exists_cons
    rw [← h]
    refine openerAt_congr ((elseTagWidth?_append hcs u).trans (elseTagWidth?_append hcs t).symm)
      ((chainWidth?_append hcs u).trans (chainWidth?_append hcs t).symm) fun hc => ?_
    subst hc
    rw [List.cons_append, openerAt_comment] at h
    cases hcomment : commentWidth? (d :: r ++ t) with
    | none =>
        rw [hcomment] at h
        cases h
    | some more =>
        rw [hcomment] at h
        cases h
        simp only [List.length_append, List.length_cons] at hle
        have hmore : more ≤ (d :: r).length := by
          rw [List.length_cons]
          omega
        exact (commentWidth?_append (hcs.of_cons (by decide)) hcomment hmore u).trans
          hcomment.symm
  · rw [List.take_append_of_le_length hle, List.take_append_of_le_length hle]

/-- The `{{` and the `~` of a delimiter, and what follows them. -/
theorem exists_opener (hcs : EndsTag cs) (hstart : ['{', '{'] <+: cs) :
    ∃ w r, cs = w ++ r ∧ EndsTag r ∧
      ∀ t, opener (cs ++ t) = some (openerAt (cs ++ t) w.length (r ++ t)) := by
  obtain ⟨r, rfl⟩ := hstart
  have hr : EndsTag r := hcs.of_append (by decide)
  have hopener {w v : Text} (hw : ∀ t, Braces w (v ++ t)) (t : Text) :
      opener (w ++ v ++ t) = some (openerAt (w ++ v ++ t) w.length (v ++ t)) := by
    rw [List.append_assoc]
    exact opener_braces (hw t)
  obtain ⟨c, d, r, rfl⟩ := hr.exists_cons
  by_cases hc : c = '~'
  · subst hc
    exact ⟨['{', '{', '~'], d :: r, rfl, hr.of_cons (by decide), hopener fun _ => .inr rfl⟩
  · exact ⟨['{', '{'], c :: d :: r, rfl, hr,
      hopener fun _ => .inl ⟨rfl, fun h => hc (Option.some.inj h)⟩⟩

theorem kept_opener (hcs : EndsTag cs) (t u : Text) :
    Kept cs.length (opener (cs ++ t)) (opener (cs ++ u)) := by
  by_cases hstart : ['{', '{'] <+: cs
  · obtain ⟨w, r, rfl, hr, hopener⟩ := exists_opener hcs hstart
    rw [hopener, hopener]
    refine ⟨nofun, fun {k n} htoken hle => ?_⟩
    rw [openerAt_append hr (Option.some.inj htoken) hle]
  · have hnone (t : Text) : opener (cs ++ t) = none := by
      obtain ⟨c, d, r, rfl⟩ := hcs.exists_cons
      rw [opener.eq_def]
      split
      · next heq =>
          cases heq
          exact absurd ⟨r, rfl⟩ hstart
      · rfl
    rw [hnone, hnone]
    exact ⟨id, nofun⟩

/-! ## All alternatives -/

/-- **A token that lies in front of the end of a tag is read without what follows the tag.** -/
theorem readToken_swap {square afterSeparator : Bool} {k : Token} {w : Nat} (hcs : EndsTag cs)
    (h : Swap cs t u) (htoken : readToken square afterSeparator (cs ++ t) = some (.token k w))
    (hw : w ≤ cs.length) : readToken square afterSeparator (cs ++ u) = some (.token k w) := by
  have hend := hcs.endsWith
  have hstop : Stops '}' := .inl rfl
  unfold readToken at htoken ⊢
  revert htoken
  refine Kept.orElse (.of_append (fixed_append hend (by decide) _)) hw ?_
  refine Kept.orElse (kept_rawCloser h) hw ?_
  refine Kept.orElse (kept_opener hcs t u) hw ?_
  refine Kept.orElse (kept_closer hcs h) hw ?_
  refine Kept.orElse (.of_append (fixed_append hend (by decide) _)) hw ?_
  refine Kept.orElse (.of_append (fixed_append hend (by decide) _)) hw ?_
  refine Kept.orElse (.of_append (fixed_append hend (by decide) _)) hw ?_
  refine Kept.orElse (.of_append (dots_append hend hstop)) hw ?_
  refine Kept.orElse (kept_quoted h hcs.ne_nil) hw ?_
  refine Kept.orElse (.of_append (fixed_append hend (by decide) _)) hw ?_
  refine Kept.orElse (.of_append (keyword_append hend (by decide) _ _)) hw ?_
  refine Kept.orElse (.of_append (keyword_append hend (by decide) _ _)) hw ?_
  refine Kept.orElse (.of_append (keyword_append hend (by decide) _ _)) hw ?_
  refine Kept.orElse (.of_append (keyword_append hend (by decide) _ _)) hw ?_
  refine Kept.orElse (.of_append (number_append hend hstop _)) hw ?_
  refine Kept.orElse (.of_append (blockParams_append hend hstop)) hw ?_
  refine Kept.orElse (.of_append (fixed_append hend (by decide) _)) hw ?_
  refine Kept.orElse (.of_append (arrayDelimiter_append hend _ _)) hw ?_
  refine Kept.orElse (.of_append (ident_append hend hstop _)) hw fun htoken => ?_
  exact bracketIdent_append htoken hw hcs.ne_nil u

end Reading
end Stache
