import Stache.Proofs.Grammar.Reads
import Stache.Proofs.Token.Closes
import Stache.Proofs.Token.Names

/-!
# Reading inside a tag

Tokens that stand in a tag one after the other are read off one piece of text, each of them by
`readToken` in front of all that follows (`InTag`).  This holds of any such tokens of a template,
with the delimiters of the tag or without (`InOneTag.exists_inTag`).
-/

namespace Stache

/-- The scanner, inside a tag and at an offset, reads some tokens off a text in front of `v`.
The flag says that the token before them is a separator. -/
inductive InTag (square : Bool) (v : Text) : Bool → Nat → Text → List Lexeme → Prop where
  | nil {after : Bool} {offset : Nat} : InTag square v after offset [] []
  | cons {after : Bool} {offset start stop : Nat} {space w cs : Text} {c : Char} {t : Token}
      {ls : List Lexeme} (hspace : space.all isTagSpace = true) (hc : isTagSpace c = false)
      (hread : Reading.readToken square after (c :: w ++ (cs ++ v)) =
        some (.token t (c :: w).length))
      (hstart : start = offset + Text.byteLength space)
      (hstop : stop = start + Text.byteLength (c :: w))
      (h : InTag square v t.isSeparator stop cs ls) :
      InTag square v after offset (space ++ (c :: w ++ cs)) (⟨t, ⟨start, stop⟩⟩ :: ls)

variable {square after : Bool} {offset : Nat} {cs v w : Text} {ls ls' own more : List Lexeme}

namespace InTag

theorem named (h : InTag square v after offset cs ls) : ∀ l ∈ ls, l.token.Named := by
  induction h with
  | nil => nofun
  | @cons after _ _ _ _ _ _ _ t ls _ _ hread _ _ _ ih =>
      refine List.forall_mem_cons.mpr ⟨?_, ih⟩
      have hnamed := Reading.named_readToken square after _ hread
      cases t with
      | ident name => exact hnamed
      | _ => trivial

/-- Behind a `.` that separates two segments the next one does not start with a dot. -/
theorem dotted {s s' : Span} {name : Text}
    (h : InTag square v after offset cs (⟨.separator .dot, s⟩ :: ⟨.ident name, s'⟩ :: ls)) :
    name.head? ≠ some '.' := by
  cases h with
  | cons _ _ hread _ _ h =>
      obtain ⟨d, r, hbehind, hplain, hdot⟩ := Reading.named_readToken _ _ _ hread
      rw [List.drop_left] at hbehind
      cases h with
      | @cons _ _ _ _ space _ _ _ _ _ hspace _ hread' _ _ _ =>
          obtain rfl : space = [] := by
            cases space with
            | nil => rfl
            | cons e space =>
                obtain ⟨rfl, -⟩ := List.cons.inj hbehind
                rw [isSpace_of_isTagSpace (Bool.and_eq_true_iff.mp hspace).1] at hplain
                cases hplain
          obtain ⟨rfl, -⟩ := List.cons.inj hbehind
          have hspells := (Reading.all_spelled_readToken _ _ _ _ hread').2
          rw [List.take_left] at hspells
          rcases hspells with hname | ⟨_, hbracket, hname⟩
          · rw [← hname]
            exact fun hhead => hdot (Option.some.inj hhead)
          · rw [hname, hbracket]
            exact fun hhead => absurd (Option.some.inj hhead) (by decide)

/-- The first of two lists of tokens is read in front of the second. -/
theorem append (h : InTag square v after offset cs (ls ++ ls')) :
    ∃ w w' after', cs = w ++ w' ∧ InTag square (w' ++ v) after offset w ls ∧
      InTag square v after' (offset + w.byteLength) w' ls' := by
  induction ls generalizing after offset cs with
  | nil => exact ⟨[], cs, after, rfl, .nil, h⟩
  | cons l ls ih =>
      cases h with
      | @cons _ _ start stop space w _ c t _ hspace hc hread hstart hstop h =>
          obtain ⟨w₁, w₂, after', rfl, hfirst, hsecond⟩ := ih h
          refine ⟨space ++ (c :: w ++ w₁), w₂, after', by simp only [List.append_assoc], ?_, ?_⟩
          · rw [List.append_assoc] at hread
            exact .cons hspace hc hread hstart hstop hfirst
          · rw [hstop, hstart] at hsecond
            simpa only [Text.byteLength_append, Nat.add_assoc] using hsecond

/-- The last token ends where the text ends. -/
theorem stop_eq (h : InTag square v after offset cs ls) {last : Span} (hlast : last.stop = offset) :
    (endOf last ls).stop = offset + cs.byteLength := by
  induction h generalizing last with
  | nil => exact hlast
  | cons _ _ _ hstart hstop _ ih =>
      rw [endOf, ih rfl, hstop, hstart]
      simp only [Text.byteLength_append, Nat.add_assoc]

theorem ne_nil (h : InTag square v after offset cs ls) (hne : ls ≠ []) : cs ≠ [] := by
  cases h with
  | nil => exact absurd rfl hne
  | cons => simp

/-- The first token is read at the start of a text that it starts with. -/
theorem exists_read {t : Token} {s : Span} (h : InTag square v after offset cs (⟨t, s⟩ :: ls))
    (hs : s.start = offset) : ∃ w cs', cs = w ++ cs' ∧
      Reading.readToken square after (w ++ (cs' ++ v)) = some (.token t w.length) ∧
      InTag square v t.isSeparator (offset + w.byteLength) cs' ls := by
  cases h with
  | @cons _ _ start stop space w cs c _ _ hspace hc hread hstart hstop h =>
      obtain rfl : space = [] := by
        cases space with
        | nil => rfl
        | cons d space =>
            have hpos : 0 < d.utf8Size := Char.utf8Size_pos d
            have hs : start = offset := hs
            rw [Text.byteLength_cons] at hstart
            omega
      rw [hstop, show start = offset from hs] at h
      exact ⟨c :: w, cs, rfl, hread, h⟩

/-- The first token is spelled at the start of a text that it starts with. -/
theorem exists_spells {t : Token} {s : Span} (h : InTag square v after offset cs (⟨t, s⟩ :: ls))
    (hs : s.start = offset) : ∃ w cs', cs = w ++ cs' ∧ t.Spells w (cs' ++ v) ∧
      InTag square v t.isSeparator (offset + w.byteLength) cs' ls := by
  obtain ⟨w, cs', rfl, hread, h⟩ := h.exists_read hs
  have hspells := (Reading.all_spelled_readToken _ _ _ _ hread).2
  rw [List.take_left, List.drop_left] at hspells
  exact ⟨w, cs', rfl, hspells, h⟩

/-- Some of the tokens cover a piece of the text. -/
theorem exists_covered (h : InTag square v after offset cs ls) (hown : own <:+: ls)
    (hne : own ≠ []) : ∃ a m b, cs = a ++ (m ++ b) ∧
      covered own = ⟨offset + a.byteLength, offset + Text.byteLength (a ++ m)⟩ := by
  obtain ⟨before, behind, rfl⟩ := hown
  rw [List.append_assoc] at h
  obtain ⟨a, _, _, rfl, -, h⟩ := h.append
  obtain ⟨m, b, _, rfl, hown, -⟩ := h.append
  cases hown with
  | nil => exact absurd rfl hne
  | @cons _ _ start stop space w cs c t ls _ _ _ hstart hstop hmore =>
      refine ⟨a ++ space, c :: w ++ cs, b, by simp only [List.append_assoc], ?_⟩
      rw [covered, hmore.stop_eq rfl, hstop, hstart]
      simp only [Text.byteLength_append, Nat.add_assoc]

/-- The last token is read off the end of the text. -/
theorem exists_spells_last {t : Token} {s : Span}
    (h : InTag square v after offset cs (ls ++ [⟨t, s⟩])) :
    ∃ w cs', cs = cs' ++ w ∧ t.Spells w v := by
  obtain ⟨front, w', _, rfl, -, hlast⟩ := h.append
  cases hlast with
  | @cons _ _ _ _ space w _ c _ _ _ _ hread _ _ h =>
      cases h with
      | nil =>
          have hspells := (Reading.all_spelled_readToken _ _ _ _ hread).2
          rw [List.take_left, List.drop_left] at hspells
          exact ⟨c :: w, front ++ space, by simp only [List.append_nil, List.append_assoc], hspells⟩

end InTag

/-! ## Tokens of a template -/

/-- The tokens stand in one tag: only the last of them may end it. -/
inductive InOneTag : List Lexeme → Prop where
  | last {x : Lexeme} (hx : x.token.ofTag = true) : InOneTag [x]
  | cons {x : Lexeme} {ls : List Lexeme} (hx : x.token.staysInTag = true) (h : InOneTag ls) :
      InOneTag (x :: ls)

namespace InOneTag

theorem ne_nil (h : InOneTag ls) : ls ≠ [] := by
  cases h <;> exact List.cons_ne_nil _ _

theorem ofTag_head {x : Lexeme} (h : InOneTag (x :: ls)) : x.token.ofTag = true := by
  cases h with
  | last hx => exact hx
  | cons hx _ => exact (Bool.and_eq_true_iff.mp hx).1

end InOneTag

theorem Token.staysInTag_of_isInner {t : Token} (h : t.isInner = true) : t.staysInTag = true := by
  cases t <;> first | rfl | cases h

/-- Tokens inside a tag, and one more that may end it. -/
theorem Inner.inOneTag_append {x : Lexeme} (h : Inner ls) (hx : x.token.ofTag = true) :
    InOneTag (ls ++ [x]) := by
  induction ls with
  | nil => exact .last hx
  | cons l ls ih =>
      obtain ⟨hl, hls⟩ := List.forall_mem_cons.mp h
      exact .cons (Token.staysInTag_of_isInner hl) (ih hls)

theorem Inner.inOneTag (h : Inner ls) (hne : ls ≠ []) : InOneTag ls := by
  rw [← List.dropLast_concat_getLast hne] at h ⊢
  obtain ⟨hfront, hlast⟩ := List.forall_mem_append.mp h
  exact Inner.inOneTag_append hfront
    (Bool.and_eq_true_iff.mp (Token.staysInTag_of_isInner (hlast _ (by simp)))).1

namespace Scanner

theorem modeAfter_of_staysInTag {t : Token} (h : t.staysInTag = true) : modeAfter t = .tag := by
  cases t <;> first | rfl | cases h

variable {s s' : State} {rest : Text} {x : Lexeme}

/-- A move inside a tag skips tag space and reads a token of at least one character. -/
theorem exists_of_tagStep (hmode : s.mode = .tag) (h : step square s cs = .moved ls s' rest) :
    ∃ space c w t, cs = space ++ (c :: w ++ rest) ∧ space.all isTagSpace = true ∧
      isTagSpace c = false ∧
      Reading.readToken square s.afterSeparator (c :: w ++ rest) =
        some (.token t (c :: w).length) ∧
      ls = [⟨t, ⟨s.offset + Text.byteLength space,
        s.offset + Text.byteLength space + Text.byteLength (c :: w)⟩⟩] ∧
      s'.mode = modeAfter t ∧ s'.afterSeparator = t.isSeparator ∧
      s'.offset = s.offset + Text.byteLength space + Text.byteLength (c :: w) := by
  rw [step, hmode] at h
  obtain ⟨t, width, hread, hne, rfl, rfl, rfl⟩ := tagStep_eq_moved_iff.mp h
  have hspace : cs.takeWhile isTagSpace ++ cs.dropWhile isTagSpace = cs :=
    List.takeWhile_append_dropWhile
  have hfirst := List.head_dropWhile_not isTagSpace hne
  generalize cs.dropWhile isTagSpace = body at hread hne hspace hfirst
  obtain ⟨c, r, rfl⟩ := List.exists_cons_of_ne_nil hne
  obtain ⟨n, rfl⟩ : ∃ n, width = n + 1 :=
    Nat.exists_eq_succ_of_ne_zero (Nat.ne_of_gt (Reading.allProper_readToken _ _ _ _ hread))
  have hwidth : n + 1 ≤ r.length + 1 := Reading.fits_readToken _ _ _ _ hread
  have hlength : (c :: r.take n).length = n + 1 := by
    rw [List.length_cons, List.length_take_of_le (Nat.le_of_succ_le_succ hwidth)]
  have hrest : c :: r.take n ++ (c :: r).drop (n + 1) = c :: r :=
    congrArg (List.cons c) (List.take_append_drop n r)
  refine ⟨_, c, r.take n, t, ?_, List.all_takeWhile, hfirst, ?_, rfl, rfl, rfl, rfl⟩
  · rw [hrest, hspace]
  · rw [hrest, hlength, hread]

/-- The first token that is read inside a tag, and those behind it. -/
theorem exists_of_scan (hmode : s.mode = .tag) (h : (scan square s cs).lexemes = x :: more) :
    ∃ space c w rest, cs = space ++ (c :: w ++ rest) ∧ ∃ s', space.all isTagSpace = true ∧
      isTagSpace c = false ∧
      Reading.readToken square s.afterSeparator (c :: w ++ rest) =
        some (.token x.token (c :: w).length) ∧
      s'.mode = modeAfter x.token ∧ s'.afterSeparator = x.token.isSeparator ∧
      s'.offset = s.offset + Text.byteLength space + Text.byteLength (c :: w) ∧
      x.span = ⟨s.offset + Text.byteLength space,
        s.offset + Text.byteLength space + Text.byteLength (c :: w)⟩ ∧
      (scan square s' rest).lexemes = more := by
  cases hstep : step square s cs with
  | finished =>
      rw [scan_of_finished hstep] at h
      cases h
  | failed fault =>
      rw [scan_of_failed hstep] at h
      cases h
  | moved ls s' rest =>
      obtain ⟨space, c, w, t, rfl, hspace, hc, hread, rfl, hmode', hafter, hoffset⟩ :=
        exists_of_tagStep hmode hstep
      rw [scan_of_step hstep] at h
      have hcons : _ :: (scan square s' rest).lexemes = x :: more := h
      obtain ⟨rfl, hscan⟩ := List.cons.inj hcons
      exact ⟨space, c, w, rest, rfl, s', hspace, hc, hread, hmode', hafter, hoffset, rfl, hscan⟩

/-- The first tokens that are read inside a tag. -/
theorem inTag_of_scan (hmode : s.mode = .tag) (hown : InOneTag own)
    (h : (scan square s cs).lexemes = own ++ more) :
    ∃ w v, cs = w ++ v ∧ InTag square v s.afterSeparator s.offset w own := by
  induction hown generalizing s cs with
  | @last x hx =>
      obtain ⟨space, c, w, rest, rfl, s', hspace, hc, hread, -, -, -, hspan, -⟩ :=
        exists_of_scan hmode h
      obtain ⟨t, span⟩ := x
      obtain rfl : span = _ := hspan
      refine ⟨space ++ (c :: w ++ []), rest, by simp only [List.append_assoc, List.nil_append], ?_⟩
      exact .cons hspace hc (by rwa [List.nil_append]) rfl rfl .nil
  | @cons x own hx hown ih =>
      obtain ⟨space, c, w, rest, rfl, s', hspace, hc, hread, hmode', hafter, hoffset, hspan, h⟩ :=
        exists_of_scan hmode h
      obtain ⟨w', v, rfl, hin⟩ := ih (hmode'.trans (modeAfter_of_staysInTag hx)) h
      obtain ⟨t, span⟩ := x
      obtain rfl : span = _ := hspan
      rw [hafter, hoffset] at hin
      exact ⟨space ++ (c :: w ++ w'), v, by simp only [List.append_assoc],
        .cons hspace hc hread rfl rfl hin⟩

/-- Outside of tags no move reads a token that stands in one. -/
theorem ofTag_of_step (hmode : s.mode ≠ .tag) (h : step square s cs = .moved ls s' rest) :
    ∀ l ∈ ls, l.token.ofTag = false := by
  rw [step] at h
  split at h
  · exact forall_textStep (fun t => t.ofTag = false) (fun _ _ => rfl) h
  · next htag => exact absurd htag hmode
  · obtain ⟨width, name, -, rfl, -, -⟩ := rawStep_eq_moved_iff.mp h
    exact List.forall_mem_append.mpr
      ⟨forall_contentLexeme (fun t => t.ofTag = false) (fun _ _ => rfl) _ _ _,
        List.forall_mem_singleton.mpr rfl⟩

/-- Tokens that stand in one tag are read one by one, from where the first of them starts. -/
theorem exists_inTag_of_scan (square : Bool) (s : State) (cs : Text) {before : List Lexeme}
    (hown : InOneTag own)
    (h : (scan square s cs).lexemes = before ++ (own ++ more)) :
    ∃ u w v after, cs = u ++ (w ++ v) ∧ InTag square v after (s.offset + u.byteLength) w own := by
  cases hstep : step square s cs with
  | finished =>
      rw [scan_of_finished hstep] at h
      exact absurd (List.append_eq_nil_iff.mp (List.append_eq_nil_iff.mp h.symm).2).1 hown.ne_nil
  | failed fault =>
      rw [scan_of_failed hstep] at h
      exact absurd (List.append_eq_nil_iff.mp (List.append_eq_nil_iff.mp h.symm).2).1 hown.ne_nil
  | moved ls s' rest =>
      rw [scan_of_step hstep] at h
      have hlexemes : ls ++ (scan square s' rest).lexemes = before ++ (own ++ more) := h
      have hbehind {before' : List Lexeme}
          (hrest : (scan square s' rest).lexemes = before' ++ (own ++ more)) :
          ∃ u w v after, cs = u ++ (w ++ v) ∧
            InTag square v after (s.offset + u.byteLength) w own := by
        obtain ⟨w₀, rfl, hoffset⟩ := exists_of_step hstep
        obtain ⟨u, w, v, after, rfl, hin⟩ := exists_inTag_of_scan square s' rest hown hrest
        refine ⟨w₀ ++ u, w, v, after, (List.append_assoc ..).symm, ?_⟩
        rwa [Text.byteLength_append, ← Nat.add_assoc, ← hoffset]
      rcases List.append_eq_append_iff.mp hlexemes with ⟨_, -, hrest⟩ | ⟨ls', rfl, htokens⟩
      · exact hbehind hrest
      · cases ls' with
        | nil =>
            have hrest : (scan square s' rest).lexemes = [] ++ (own ++ more) := htokens.symm
            exact hbehind hrest
        | cons x ls' =>
            obtain ⟨y, own, rfl⟩ := List.exists_cons_of_ne_nil hown.ne_nil
            obtain ⟨rfl, -⟩ := List.cons.inj htokens
            have hmode : s.mode = .tag := by
              refine Decidable.byContradiction fun hmode => ?_
              have houter := ofTag_of_step hmode hstep y (by simp)
              rw [hown.ofTag_head] at houter
              cases houter
            obtain ⟨_, _, _, _, -, -, -, -, hsingle, -⟩ := exists_of_tagStep hmode hstep
            obtain rfl : before = [] := by
              cases before with
              | nil => rfl
              | cons _ before => simp at hsingle
            rw [← scan_of_step hstep] at h
            obtain ⟨w, v, rfl, hin⟩ := inTag_of_scan hmode hown h
            exact ⟨[], w, v, s.afterSeparator, rfl, hin⟩
termination_by measure s cs
decreasing_by exact step_measure ‹_›

end Scanner

/-- Tokens of a template that stand in one tag are read off what they cover. -/
theorem InOneTag.exists_inTag {text : Text} {before : List Lexeme} (hown : InOneTag own)
    (h : (tokenize square text).lexemes = before ++ (own ++ more)) :
    ∃ u w v after, text = u ++ (w ++ v) ∧ InTag square v after u.byteLength w own ∧
      covered own = ⟨u.byteLength, Text.byteLength (u ++ w)⟩ := by
  obtain ⟨u, w, v, after, rfl, hin⟩ := Scanner.exists_inTag_of_scan square .initial text hown h
  rw [Scanner.State.initial, Nat.zero_add] at hin
  cases hin with
  | nil => exact absurd rfl hown.ne_nil
  | @cons _ _ start stop space w cs c t ls hspace hc hread hstart hstop hin =>
      have hoffset : start = Text.byteLength (u ++ space) := by
        rw [hstart, Text.byteLength_append]
      refine ⟨u ++ space, c :: w ++ cs, v, after, by simp only [List.append_assoc], ?_, ?_⟩
      · have hspace : List.all [] isTagSpace = true := rfl
        exact .cons hspace hc hread hoffset hstop hin
      · rw [covered, hin.stop_eq rfl, hstop, hoffset]
        simp only [Text.byteLength_append, Nat.add_assoc]

/-- The same for tokens that stand inside a tag. -/
theorem exists_inTag {text : Text} {before : List Lexeme} (hne : own ≠ []) (hown : Inner own)
    (h : (tokenize square text).lexemes = before ++ (own ++ more)) :
    ∃ u w v after, text = u ++ (w ++ v) ∧ InTag square v after u.byteLength w own ∧
      covered own = ⟨u.byteLength, Text.byteLength (u ++ w)⟩ :=
  (hown.inOneTag hne).exists_inTag h

end Stache
