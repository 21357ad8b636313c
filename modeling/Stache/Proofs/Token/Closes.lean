import Stache.Proofs.Token.Swap
import Stache.Proofs.Token.Spelling
import Stache.Proofs.Token.Tiles

/-!
# What the scanner does up to the end of a tag

A token that ends a tag takes two closing braces with it, and behind it the scanner starts
afresh, between tags or in the body of a raw block.  `Closes` is the scanner's way from a
text to such a place, move by move.

None of these moves looks past that place: the same moves lead there if another text
follows (`Closes.swap`).  Between tags the search for `{{` has found what it looks for in
front of it, inside a tag `readToken_swap` applies, and a raw block has its closer there.
-/

namespace Stache

open Text

variable {square : Bool} {cs k rest t u w v : Text} {ls : List Lexeme}

theorem Lexing.prepend_prepend (ls ls' : List Lexeme) (l : Lexing) :
    (l.prepend ls').prepend ls = l.prepend (ls ++ ls') := by
  simp [Lexing.prepend]

/-- A token that ends a tag is spelled with two closing braces at its end. -/
theorem Token.Spells.endsTag {x : Token} (h : x.Spells w v) (hx : x.Delimited)
    (hend : x.endsTag = true) : EndsTag w := by
  cases x with
  | closer | unescapedCloser =>
      obtain rfl := h
      exact hx
  | elseTag | comment =>
      obtain rfl := h
      exact hx.2
  | rawCloser =>
      obtain rfl := h
      exact ⟨['}', '}'], rfl⟩
  | rawEnd name =>
      obtain rfl := h
      exact ⟨['{', '{', '{', '{', '/'] ++ (name ++ ['}', '}']), by simp⟩
  | _ => cases hend

namespace Scanner

variable {s s' : State} {x : Lexeme} {before : List Lexeme}

/-! ## What a move takes -/

theorem contentLexeme_endsTag (t : Text) (start stop : Nat) :
    ∀ l ∈ contentLexeme t start stop, l.token.endsTag = false :=
  forall_contentLexeme (fun t => t.endsTag = false) (fun _ _ => rfl) t start stop

/-- Between tags no token ends one. -/
theorem endsTag_textStep (h : textStep s cs = .moved ls s' rest) :
    ∀ l ∈ ls, l.token.endsTag = false :=
  forall_textStep (fun t => t.endsTag = false) (fun _ _ => rfl) h

theorem exists_of_textStep (h : textStep s cs = .moved ls s' rest) :
    ∃ w, cs = w ++ rest ∧ s'.offset = s.offset + w.byteLength := by
  cases textStep_eq_moved_iff.mp h with
  | last => exact ⟨cs, (List.append_nil cs).symm, rfl⟩
  | tag _ hcs => exact ⟨_, eq_of_splitBefore hcs, rfl⟩
  | doubled _ hcs hstop => exact ⟨_, eq_of_splitBefore hcs, hstop⟩
  | @escaped front inner rest _ _ hcs _ _ hstop hstop' =>
      subst hstop hstop'
      refine ⟨front ++ ['\\'] ++ (['{', '{'] ++ inner), ?_, ?_⟩
      · rw [eq_of_splitBefore hcs, List.append_assoc _ _ rest, List.append_assoc _ inner]
      · rw [Text.byteLength_append (front ++ _), ← Nat.add_assoc]

/-- A move takes some of the text and goes on behind it. -/
theorem exists_of_step (h : step square s cs = .moved ls s' rest) :
    ∃ w, cs = w ++ rest ∧ s'.offset = s.offset + w.byteLength := by
  rw [step] at h
  split at h
  · exact exists_of_textStep h
  · obtain ⟨token, width, -, -, -, rfl, rfl⟩ := tagStep_eq_moved_iff.mp h
    refine ⟨cs.takeWhile isTagSpace ++ (cs.dropWhile isTagSpace).take width, ?_, ?_⟩
    · rw [List.append_assoc, List.take_append_drop, List.takeWhile_append_dropWhile]
    · rw [Text.byteLength_append, Nat.add_assoc]
  · obtain ⟨width, name, -, -, rfl, rfl⟩ := rawStep_eq_moved_iff.mp h
    refine ⟨cs.take width ++ (cs.drop width).take (rawCloseWidth name), ?_, ?_⟩
    · rw [← List.drop_drop, List.append_assoc, List.take_append_drop, List.take_append_drop]
    · rw [Text.byteLength_append, Nat.add_assoc]

theorem isSeparator_of_endsTag {t : Token} (h : t.endsTag = true) : t.isSeparator = false := by
  cases t <;> first | rfl | cases h

theorem mode_ne_text_of_step (h : step square s cs = .moved (before ++ [x]) s' rest)
    (hx : x.token.endsTag = true) : s.mode ≠ .text := by
  intro hmode
  rw [step, hmode] at h
  have hfalse := endsTag_textStep h x (List.mem_append_right _ List.mem_cons_self)
  rw [hx] at hfalse
  cases hfalse

/-- A move whose last token ends a tag takes a text that ends as one. -/
theorem endsTag_of_step (h : step square s cs = .moved (before ++ [x]) s' rest)
    (hx : x.token.endsTag = true) (hcs : cs = w ++ rest) : EndsTag w := by
  have htext := mode_ne_text_of_step h hx
  rw [step] at h
  cases hmode : s.mode with
  | text => exact absurd hmode htext
  | tag =>
      rw [hmode] at h
      obtain ⟨token, width, hread, -, hls, -, hrest⟩ := tagStep_eq_moved_iff.mp h
      obtain rfl : x = _ := by simpa using congrArg List.getLast? hls
      have hword := (Reading.all_spelled_readToken _ _ _ _ hread).2.endsTag
        (Reading.all_readToken _ _ _ _ hread) hx
      have hw : cs.takeWhile isTagSpace ++ (cs.dropWhile isTagSpace).take width = w := by
        refine List.append_cancel_right (?_ : _ ++ rest = w ++ rest)
        rw [← hcs, hrest, List.append_assoc, List.take_append_drop,
          List.takeWhile_append_dropWhile]
      exact hw ▸ hword.append _
  | raw =>
      rw [hmode] at h
      obtain ⟨width, name, hbody, -, -, hrest⟩ := rawStep_eq_moved_iff.mp h
      have hcloser := take_of_rawCloseName? (rawCloseName?_of_rawBody? hbody)
      have hw : cs.take width ++ (cs.drop width).take (rawCloseWidth name) = w := by
        refine List.append_cancel_right (?_ : _ ++ rest = w ++ rest)
        rw [← hcs, hrest, List.append_assoc, ← List.drop_drop, List.take_append_drop,
          List.take_append_drop]
      rw [← hw, hcloser]
      exact EndsTag.append (EndsTag.append (EndsTag.append (List.suffix_refl _) ['}', '}']) name)
        ['{', '{', '{', '{', '/'] |>.append _

/-- Behind the end of a tag the scanner is between tags or in a raw block. -/
theorem mode_of_step (h : step square s cs = .moved (before ++ [x]) s' rest)
    (hx : x.token.endsTag = true) : s'.mode ≠ .tag ∧ s'.afterSeparator = false := by
  have htext := mode_ne_text_of_step h hx
  rw [step] at h
  cases hmode : s.mode with
  | text => exact absurd hmode htext
  | tag =>
      rw [hmode] at h
      obtain ⟨token, width, hread, -, hls, rfl, -⟩ := tagStep_eq_moved_iff.mp h
      obtain rfl : x = _ := by simpa using congrArg List.getLast? hls
      refine ⟨fun hafter => ?_, isSeparator_of_endsTag hx⟩
      have hstays := staysInTag_of_modeAfter (Reading.all_spelled_readToken _ _ _ _ hread).1 hafter
      rw [Token.staysInTag, Bool.and_eq_true, Bool.not_eq_true'] at hstays
      cases hx.symm.trans hstays.2
  | raw =>
      rw [hmode] at h
      obtain ⟨width, name, -, -, rfl, -⟩ := rawStep_eq_moved_iff.mp h
      exact ⟨Mode.noConfusion, rfl⟩

/-! ## A move in front of the end of a tag -/

/-- A mark that the end of the tag bounds is found with another text behind the tag. -/
theorem splitBefore_swap {stop : Text → Bool}
    (hstop : ∀ {v}, EndsTag v → ∀ t, stop (v ++ t) = stop v) {front : Text} (hk : EndsTag k)
    (h : Text.splitBefore stop (cs ++ t) = (front, k ++ t)) (u : Text) :
    Text.splitBefore stop (cs ++ u) = (front, k ++ u) := by
  have happend := Text.splitBefore_append stop (cs ++ t)
  rw [h, ← List.append_assoc] at happend
  obtain rfl : front ++ k = cs := List.append_cancel_right happend
  clear happend
  induction front with
  | nil =>
      obtain ⟨c, d, r, rfl⟩ := hk.exists_cons
      have hmark := (hstop hk u).trans (hstop hk t).symm
      simp only [List.nil_append, List.cons_append, Text.splitBefore] at h hmark ⊢
      rw [hmark]
      split at h
      · next hyes => rw [if_pos hyes]
      · cases h
  | cons c front ih =>
      have hmark := (hstop (hk.append (c :: front)) u).trans (hstop (hk.append (c :: front)) t).symm
      simp only [List.cons_append, Text.splitBefore] at h hmark ⊢
      rw [hmark]
      split at h
      · cases h
      · next hno =>
          rw [if_neg hno]
          obtain ⟨hfront, hrest⟩ := Prod.mk.inj h
          rw [ih (Prod.ext (List.cons.inj hfront).2 hrest)]

theorem startsTag_append (h : EndsTag cs) (t : Text) : startsTag (cs ++ t) = startsTag cs :=
  h.isPrefixOf_append (by decide) t

theorem startsTagOrEscape_append (h : EndsTag cs) (t : Text) :
    startsTagOrEscape (cs ++ t) = startsTagOrEscape cs := by
  rw [startsTagOrEscape, h.isPrefixOf_append (by decide), h.isPrefixOf_append (by decide),
    h.isPrefixOf_append (by decide), startsTagOrEscape]

theorem textStep_append (hk : EndsTag k) (h : textStep s (cs ++ t) = .moved ls s' (k ++ t))
    (u : Text) : textStep s (cs ++ u) = .moved ls s' (k ++ u) := by
  have hfirst {k front : Text} (hk : EndsTag k)
      (hsplit : Text.splitBefore startsTag (cs ++ t) = (front, k ++ t)) :
      Text.splitBefore startsTag (cs ++ u) = (front, k ++ u) :=
    splitBefore_swap startsTag_append hk hsplit u
  have hbraces (hstart : ['{', '{'] <+: k ++ t) : ['{', '{'] <+: k ++ u := by
    rw [← List.isPrefixOf_iff_prefix, hk.isPrefixOf_append (by decide)] at hstart ⊢
    exact hstart
  rw [textStep_eq_moved_iff] at h ⊢
  generalize hrest : k ++ t = rest at h
  cases h with
  | last => exact absurd (List.append_eq_nil_iff.mp hrest).1 hk.ne_nil
  | tag hstart hcs hfront =>
      subst hrest
      exact .tag (hbraces hstart) (hfirst hk hcs) hfront
  | doubled hstart hcs hstop =>
      subst hrest
      exact .doubled (hbraces hstart) (hfirst hk hcs) hstop
  | @escaped front inner _ _ _ hcs hinner hfront hstop hstop' =>
      subst hrest
      have hassoc (v : Text) : ['{', '{'] ++ (inner ++ (k ++ v)) = ['{', '{'] ++ (inner ++ k) ++ v := by
        simp only [List.append_assoc]
      rw [hassoc] at hcs
      rw [← List.append_assoc] at hinner
      have hcs' := hfirst ((hk.append inner).append _) hcs
      have hinner' := splitBefore_swap startsTagOrEscape_append hk hinner u
      rw [← hassoc] at hcs'
      rw [List.append_assoc] at hinner'
      exact .escaped hcs' hinner' hfront hstop hstop'

theorem tagStep_append (hcs : EndsTag cs) (hswap : Swap cs t u)
    (h : tagStep square s (cs ++ t) = .moved ls s' (k ++ t)) :
    tagStep square s (cs ++ u) = .moved ls s' (k ++ u) := by
  have hspace : isTagSpace '}' = false := by decide
  have hbody := hcs.dropWhile hspace
  obtain ⟨token, width, hread, hne, hls, hs', hdrop⟩ := tagStep_eq_moved_iff.mp h
  rw [hcs.dropWhile_append hspace] at hread hls hs' hdrop
  rw [hcs.takeWhile_append hspace] at hls hs'
  have hwidth : width ≤ (cs.dropWhile isTagSpace).length := by
    have hfits : width ≤ _ := Reading.fits_readToken _ _ _ _ hread
    have hlen := congrArg List.length hdrop
    rw [List.length_drop, List.length_append, List.length_append] at hlen
    rw [List.length_append] at hfits
    omega
  rw [List.take_append_of_le_length hwidth] at hls hs'
  rw [List.drop_append_of_le_length hwidth] at hdrop
  refine tagStep_eq_moved_iff.mpr ⟨token, width, ?_⟩
  rw [hcs.dropWhile_append hspace, hcs.takeWhile_append hspace,
    List.take_append_of_le_length hwidth, List.drop_append_of_le_length hwidth,
    List.append_cancel_right hdrop]
  exact ⟨Reading.readToken_swap hbody (hswap.of_suffix (List.dropWhile_suffix _)) hread hwidth,
    List.append_ne_nil_of_left_ne_nil hbody.ne_nil _, hls, hs', rfl⟩

/-! ## Raw blocks -/

/-- What may be the closer of a raw block is so if four braces follow its name. -/
theorem exists_of_rawCloseName? (hcs : EndsTag cs)
    (hstart : ['{', '{', '{', '{', '/'].isPrefixOf cs = true) :
    ∃ name r, cs = ['{', '{', '{', '{', '/'] ++ (name ++ r) ∧ EndsTag r ∧
      ∀ t, rawCloseName? (cs ++ t) =
        if !name.isEmpty && ['}', '}', '}', '}'].isPrefixOf (r ++ t) then some name else none := by
  have hident : Reading.isIdent '}' = false := by decide
  obtain ⟨r, rfl⟩ := List.isPrefixOf_iff_prefix.mp hstart
  have hr : EndsTag r := hcs.of_append (by decide)
  refine ⟨r.takeWhile Reading.isIdent, r.dropWhile Reading.isIdent, ?_, hr.dropWhile hident,
    fun t => ?_⟩
  · rw [List.takeWhile_append_dropWhile]
  · have hdrop : (['{', '{', '{', '{', '/'] ++ r ++ t).drop 5 = r ++ t := rfl
    have hrest : EndsTag (r.drop (r.takeWhile Reading.isIdent).length) := by
      rw [drop_takeWhile]
      exact hr.dropWhile hident
    rw [rawCloseName?, hcs.isPrefixOf_append (by decide), hstart, if_pos rfl]
    dsimp only
    rw [hdrop, hr.takeWhile_append hident, ← List.drop_drop, hdrop, hrest.drop_append,
      drop_takeWhile]

/-- What is no start of a closer is none in front of the end of a tag. -/
theorem rawCloseName?_eq_none_of_start (hcs : EndsTag cs)
    (hstart : ['{', '{', '{', '{', '/'].isPrefixOf cs = false) (t : Text) :
    rawCloseName? (cs ++ t) = none := by
  rw [rawCloseName?, hcs.isPrefixOf_append (by decide), hstart]
  rfl

/-- The closer of a raw block in front of the end of a tag. -/
theorem rawCloseName?_append {name : Text} (hcs : EndsTag cs)
    (h : rawCloseName? (cs ++ t) = some name) (hle : rawCloseWidth name ≤ cs.length) (u : Text) :
    rawCloseName? (cs ++ u) = some name := by
  cases hstart : ['{', '{', '{', '{', '/'].isPrefixOf cs with
  | false =>
      rw [rawCloseName?_eq_none_of_start hcs hstart] at h
      cases h
  | true =>
      obtain ⟨name', r, rfl, hr, hclose⟩ := exists_of_rawCloseName? hcs hstart
      rw [hclose] at h ⊢
      simp only [Option.ite_none_right_eq_some, Option.some.injEq, Bool.and_eq_true] at h ⊢
      obtain ⟨⟨hname, hbraces⟩, rfl⟩ := h
      have hlen : 4 ≤ r.length := by
        simp only [rawCloseWidth, List.length_append, List.length_cons, List.length_nil] at hle
        omega
      rw [isPrefixOf_append_of_le (p := ['}', '}', '}', '}']) hlen] at hbraces ⊢
      exact ⟨⟨hname, hbraces⟩, rfl⟩

theorem rawCloseName?_eq_none (hcs : EndsTag cs) (hswap : Swap cs t u)
    (h : rawCloseName? (cs ++ t) = none) : rawCloseName? (cs ++ u) = none := by
  cases hstart : ['{', '{', '{', '{', '/'].isPrefixOf cs with
  | false => exact rawCloseName?_eq_none_of_start hcs hstart u
  | true =>
      obtain ⟨name', r, rfl, hr, hclose⟩ := exists_of_rawCloseName? hcs hstart
      rw [hclose] at h ⊢
      simp only [ite_eq_right_iff, reduceCtorEq, imp_false, Bool.and_eq_true,
        List.isPrefixOf_iff_prefix, not_and] at h ⊢
      have hsuffix : r <:+ ['{', '{', '{', '{', '/'] ++ (name' ++ r) :=
        (List.suffix_append name' r).trans (List.suffix_append _ _)
      exact fun hname hbraces =>
        h hname ((hswap.of_suffix hsuffix).isPrefix (by simp) hbraces)

theorem EndsTag.drop {n : Nat} (h : EndsTag cs) (hn : n + 2 ≤ cs.length) : EndsTag (cs.drop n) :=
  h.of_suffix (List.drop_suffix n cs) (by rw [List.length_drop]; omega)

/-- The body of a raw block ends in front of the same closer. -/
theorem rawBody?_append {cs : Text} {depth width : Nat} {name : Text} (hcs : EndsTag cs)
    (hswap : Swap cs t u) (h : rawBody? depth (cs ++ t) = some (width, name))
    (hle : width + rawCloseWidth name ≤ cs.length) :
    rawBody? depth (cs ++ u) = some (width, name) := by
  have hnine : 9 ≤ rawCloseWidth name := Nat.le_add_left 9 _
  have hmore {depth n width : Nat} (hpos : 0 < n) (hle : width + n + rawCloseWidth name ≤ cs.length)
      (hbody : rawBody? depth ((cs ++ t).drop n) = some (width, name)) :
      rawBody? depth ((cs ++ u).drop n) = some (width, name) := by
    have hrest : EndsTag (cs.drop n) := EndsTag.drop hcs (by omega)
    rw [hrest.drop_append] at hbody ⊢
    refine rawBody?_append hrest (hswap.of_suffix (List.drop_suffix n cs)) hbody ?_
    rw [List.length_drop]
    omega
  have hopen : ['{', '{', '{', '{'] <+: cs ++ u ↔ ['{', '{', '{', '{'] <+: cs ++ t := by
    rw [← List.isPrefixOf_iff_prefix, ← List.isPrefixOf_iff_prefix,
      hcs.isPrefixOf_append (by decide), hcs.isPrefixOf_append (by decide)]
  by_cases hstart : ['{', '{', '{', '{'] <+: cs ++ t
  · cases hname : rawCloseName? (cs ++ t) with
    | none =>
        rw [rawBody?_of_braces hstart hname] at h
        rw [rawBody?_of_braces (hopen.mpr hstart) (rawCloseName?_eq_none hcs hswap hname)]
        obtain ⟨⟨n, name'⟩, hbody, heq⟩ := Option.map_eq_some_iff.mp h
        cases heq
        have hfour : EndsTag (cs.drop 4) := EndsTag.drop hcs (by omega)
        have hhead (v : Text) : ((cs ++ v).drop 4).head? = (cs.drop 4).head? :=
          (congrArg List.head? (hfour.drop_append v)).trans (hfour.head?_append v)
        rw [hhead] at hbody ⊢
        rw [hmore (by decide) hle hbody]
        rfl
    | some name' =>
        rw [rawBody?_of_closer hname] at h
        cases depth with
        | zero =>
            cases h
            rw [rawBody?_of_closer (rawCloseName?_append hcs hname (by omega) u)]
        | succ depth =>
            obtain ⟨⟨n, name''⟩, hbody, heq⟩ := Option.map_eq_some_iff.mp h
            cases heq
            rw [rawBody?_of_closer (rawCloseName?_append hcs hname (by omega) u)]
            dsimp only
            rw [hmore (n := rawCloseWidth name') (Nat.succ_pos _) hle hbody]
            rfl
  · have hopen' := mt hopen.mp hstart
    obtain ⟨c, d, r, rfl⟩ := hcs.exists_cons
    rw [List.cons_append] at h hstart hopen' ⊢
    rw [rawBody?_of_text hstart] at h
    obtain ⟨⟨n, name'⟩, hbody, heq⟩ := Option.map_eq_some_iff.mp h
    cases heq
    rw [rawBody?_of_text hopen', show rawBody? depth (d :: r ++ u) = _ from
      hmore (n := 1) Nat.one_pos hle hbody]
    rfl
termination_by cs.length
decreasing_by
  rw [List.length_drop]
  omega

theorem rawStep_append (hcs : EndsTag cs) (hswap : Swap cs t u)
    (h : rawStep s (cs ++ t) = .moved ls s' (k ++ t)) :
    rawStep s (cs ++ u) = .moved ls s' (k ++ u) := by
  obtain ⟨width, name, hbody, hls, hs', hdrop⟩ := rawStep_eq_moved_iff.mp h
  have hwidth : width + rawCloseWidth name ≤ cs.length := by
    have hcloser := congrArg List.length (take_of_rawCloseName? (rawCloseName?_of_rawBody? hbody))
    have hlen := congrArg List.length hdrop
    simp only [List.length_take, List.length_drop, List.length_append, List.length_cons,
      List.length_nil] at hcloser hlen
    simp only [rawCloseWidth] at hcloser hlen ⊢
    omega
  have hle : width ≤ cs.length := by omega
  have hle' : rawCloseWidth name ≤ (cs.drop width).length := by
    rw [List.length_drop]
    omega
  rw [List.take_append_of_le_length hle, List.drop_append_of_le_length hle,
    List.take_append_of_le_length hle'] at hls hs'
  rw [List.drop_append_of_le_length hwidth] at hdrop
  refine rawStep_eq_moved_iff.mpr ⟨width, name, rawBody?_append hcs hswap hbody hwidth, ?_⟩
  rw [List.take_append_of_le_length hle, List.drop_append_of_le_length hle,
    List.take_append_of_le_length hle', List.drop_append_of_le_length hwidth,
    List.append_cancel_right hdrop]
  exact ⟨hls, hs', rfl⟩

/-- A move in front of the end of a tag does not depend on what follows the tag. -/
theorem step_append (hcs : EndsTag cs) (hswap : Swap cs t u) (htext : s.mode = .text → EndsTag k)
    (h : step square s (cs ++ t) = .moved ls s' (k ++ t)) :
    step square s (cs ++ u) = .moved ls s' (k ++ u) := by
  rw [step] at h ⊢
  cases hmode : s.mode with
  | text =>
      rw [hmode] at h
      exact textStep_append (htext hmode) h u
  | tag =>
      rw [hmode] at h
      exact tagStep_append hcs hswap h
  | raw =>
      rw [hmode] at h
      exact rawStep_append hcs hswap h

/-! ## Moves up to the end of a tag -/

/-- The scanner moves from a state in front of a text to `s'` in front of `t`, over the given
tokens, of which the last one ends a tag. -/
inductive Closes (square : Bool) (s' : State) (t : Text) : State → Text → List Lexeme → Prop where
  | last {s : State} {cs : Text} {before : List Lexeme} {x : Lexeme}
      (h : step square s cs = .moved (before ++ [x]) s' t) (hx : x.token.endsTag = true) :
      Closes square s' t s cs (before ++ [x])
  | more {s s₁ : State} {cs rest : Text} {ls ls' : List Lexeme}
      (h : step square s cs = .moved ls s₁ rest) (hmore : Closes square s' t s₁ rest ls') :
      Closes square s' t s cs (ls ++ ls')

theorem scan_of_finished (h : step square s cs = .finished) : scan square s cs = ⟨[], none⟩ := by
  rw [scan]
  split
  · rfl
  · next hstep => cases h.symm.trans hstep
  · next hstep => cases h.symm.trans hstep

theorem scan_of_failed {fault : Fault} (h : step square s cs = .failed fault) :
    scan square s cs = ⟨[], some fault⟩ := by
  rw [scan]
  split
  · next hstep => cases h.symm.trans hstep
  · next hstep =>
      cases h.symm.trans hstep
      rfl
  · next hstep => cases h.symm.trans hstep

theorem scan_of_step (h : step square s cs = .moved ls s' rest) :
    scan square s cs = (scan square s' rest).prepend ls := by
  rw [scan]
  split
  · next hstep => cases h.symm.trans hstep
  · next hstep => cases h.symm.trans hstep
  · next hstep =>
      cases h.symm.trans hstep
      rfl

/-- Nothing is left to read, unless a raw block is open. -/
theorem scan_nil (h : s.mode ≠ .raw) : scan square s [] = ⟨[], none⟩ := by
  refine scan_of_finished ?_
  cases hmode : s.mode with
  | text => rw [step_of_text hmode]; rfl
  | tag => rw [step_of_tag hmode]; rfl
  | raw => exact absurd hmode h

namespace Closes

/-- The tokens of the whole text start with those up to the end of the tag. -/
theorem scan_eq (h : Closes square s' t s cs ls) :
    scan square s cs = (scan square s' t).prepend ls := by
  induction h with
  | last h _ => exact scan_of_step h
  | more h _ ih => rw [scan_of_step h, ih, Lexing.prepend_prepend]

/-- The text in front of `t` ends as a tag. -/
theorem exists_append (h : Closes square s' t s cs ls) :
    ∃ w, cs = w ++ t ∧ EndsTag w ∧ s'.offset = s.offset + w.byteLength := by
  induction h with
  | last h hx =>
      obtain ⟨w, hcs, hoffset⟩ := exists_of_step h
      exact ⟨w, hcs, endsTag_of_step h hx hcs, hoffset⟩
  | more h _ ih =>
      obtain ⟨w, rfl, hoffset⟩ := exists_of_step h
      obtain ⟨v, rfl, hv, hoffset'⟩ := ih
      refine ⟨w ++ v, (List.append_assoc _ _ _).symm, hv.append w, ?_⟩
      rw [hoffset', hoffset, Text.byteLength_append, Nat.add_assoc]

/-- Behind the end of a tag the scanner is between tags or in a raw block. -/
theorem mode (h : Closes square s' t s cs ls) :
    s'.mode ≠ .tag ∧ s'.afterSeparator = false := by
  induction h with
  | last h hx => exact mode_of_step h hx
  | more _ _ ih => exact ih

/-- **No token in front of the end of a tag depends on what follows the tag.** -/
theorem swap (h : Closes square s' t s (cs ++ t) ls) (hswap : Swap cs t u) :
    Closes square s' u s (cs ++ u) ls := by
  generalize htext : cs ++ t = text at h
  induction h generalizing cs with
  | last h hx =>
      subst htext
      have hcs := endsTag_of_step h hx rfl
      have hmode := mode_ne_text_of_step h hx
      exact .last (step_append (k := []) hcs hswap (fun htext => absurd htext hmode) h) hx
  | more h hmore ih =>
      subst htext
      obtain ⟨k, rfl, hk, -⟩ := hmore.exists_append
      obtain ⟨w, hcs, -⟩ := exists_of_step h
      obtain rfl : cs = w ++ k := by
        rw [← List.append_assoc] at hcs
        exact List.append_cancel_right hcs
      exact .more (step_append (hk.append w) hswap (fun _ => hk) h)
        (ih (hswap.of_suffix (List.suffix_append w k)) rfl)

end Closes
end Scanner
end Stache
