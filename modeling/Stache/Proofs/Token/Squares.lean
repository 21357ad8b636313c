import Stache.Proofs.Token.InTag
import Stache.Proofs.Token.PathText

/-!
# Brackets as lists

Where brackets are lists, a `[` that follows no separator begins one, a `]` ends one, and a `]` may
stand right behind a word or a number.  A text without lists, which is cut to its end where
brackets are segments, is cut into the same tokens where they are lists (`tokenize_square`).

No single move shows this.  In front of `1.2]` the two ways read different tokens, and both go on.
Where brackets are segments the scanner takes `1` for an identifier and comes to the `2` behind
the point.  No token starts there, as in front of every word that a `]` ends (`Capped`).
-/

namespace Stache

/-- The token is an identifier in brackets. -/
def Token.isBracketed : Token → Bool
  | .ident ('[' :: _) => true
  | _ => false

/-- Each identifier in brackets comes directly behind a separator.  The flag says that a separator
stands in front of the first token. -/
def Attached : Bool → List Lexeme → Prop
  | _, [] => True
  | after, l :: more =>
      (l.token.isBracketed = true → after = true) ∧ Attached l.token.isSeparator more

instance : ∀ after ls, Decidable (Attached after ls)
  | _, [] => inferInstanceAs (Decidable True)
  | _, l :: more =>
      have := instDecidableAttached l.token.isSeparator more
      inferInstanceAs (Decidable (_ ∧ _))

theorem Attached.of_append {ls more : List Lexeme} (hls : ∀ l ∈ ls, l.token.isSeparator = false)
    (h : Attached false (ls ++ more)) : Attached false more := by
  induction ls with
  | nil => exact h
  | cons l ls ih =>
      obtain ⟨hl, hls⟩ := List.forall_mem_cons.mp hls
      have htail := h.2
      rw [hl] at htail
      exact ih hls htail

namespace Reading

variable {after : Bool} {c : Char} {cs r u v w : Text}

/-! ## In front of a closing bracket -/

/-- A word that a closing bracket ends. -/
def Capped (cs : Text) : Prop :=
  ∃ w r, w ≠ [] ∧ (∀ c ∈ w, isIdent c = true) ∧ cs = w ++ ']' :: r

/-- A number with a point, and behind the point a word that a closing bracket ends. -/
def CappedFraction (cs : Text) : Prop :=
  ∃ front v, Text.isNumeral front = true ∧ Capped v ∧ cs = front ++ '.' :: v

theorem Capped.exists_cons (h : Capped cs) : ∃ c r, cs = c :: r ∧ isIdent c = true := by
  obtain ⟨w, r, hne, hw, rfl⟩ := h
  obtain ⟨c, w, rfl⟩ := List.exists_cons_of_ne_nil hne
  exact ⟨c, _, rfl, hw c List.mem_cons_self⟩

/-- Inside of a word and behind it a bracket ends nothing. -/
theorem boundary_capped {allowed : Text} (hv : ∀ c ∈ v, isIdent c = true)
    (hallowed : allowed ⊆ reserved) (hbracket : ']' ∉ allowed) (r : Text) :
    boundary allowed false (v ++ ']' :: r) = false := by
  cases v with
  | nil =>
      have hspace : isSpace ']' = false := by decide
      simp [boundary, hspace, hbracket]
  | cons c v => exact boundary_of_isIdent (hv c List.mem_cons_self) hallowed

/-! ## Where brackets are segments -/

theorem head?_capped (hv : ∀ c ∈ v, isIdent c = true) : (v ++ ']' :: r).head? ≠ some '.' := by
  cases v with
  | nil => exact fun h => absurd (Option.some.inj h) (by decide)
  | cons c v =>
      rw [List.cons_append, List.head?_cons, ne_eq, Option.some.injEq]
      exact ne_of_isIdent (hv c List.mem_cons_self) (by decide)

theorem ident_capped (hw : ∀ c ∈ w, isIdent c = true) : ident false (w ++ ']' :: r) = none := by
  have hstop : isIdent ']' = false := by decide
  rw [ident, List.dropWhile_append_of_pos hw, List.dropWhile_cons, hstop, if_neg]
  have hboundary : boundary afterIdent false (']' :: r) = false :=
    boundary_capped (v := []) (List.forall_mem_nil _) (by decide) (by decide) r
  simp [hboundary]

/-- **No token starts at a word that a bracket ends**, where brackets are segments. -/
theorem readToken_capped (h : Capped cs) : readToken false after cs = none := by
  obtain ⟨w, r, hne, hw, rfl⟩ := h
  have hstop : isIdent ']' = false := by decide
  have hpart {u v : Text} (huv : w = u ++ v) : ∀ c ∈ v, isIdent c = true :=
    fun c hc => hw c (huv ▸ List.mem_append_right _ hc)
  have hkeyword {spelling : Text} {t : Token} (hmem : spelling ∈ Text.keywords) :
      keyword spelling t false (w ++ ']' :: r) = none :=
    keyword_eq_none hmem hstop fun v hv => boundary_capped (hpart hv) (by decide) (by decide) r
  have hnumber : number false (w ++ ']' :: r) = none := by
    refine number_eq_none hstop fun front v hv _ => ?_
    rw [fractionWidth_of_ne (head?_capped (hpart hv)), List.drop_zero]
    exact boundary_capped (hpart hv) (by decide) (by decide) r
  have hparams : blockParams (w ++ ']' :: r) = none := blockParams_word_eq_none hw hstop (by decide)
  have hident : ident false (w ++ ']' :: r) = none := ident_capped hw
  obtain ⟨c, v, rfl⟩ := List.exists_cons_of_ne_nil hne
  rw [List.cons_append] at *
  rw [readToken_of_isIdent (hw c List.mem_cons_self), hkeyword (by decide), hkeyword (by decide),
    hkeyword (by decide), hkeyword (by decide), hnumber, hparams, hident]
  rfl

theorem dropWhile_capped (w r : Text) :
    (w ++ ']' :: r).dropWhile Char.isDigit = w.dropWhile Char.isDigit ++ ']' :: r := by
  have hbracket : Char.isDigit ']' = false := by decide
  induction w with
  | nil => rw [List.nil_append, List.dropWhile_cons, hbracket]; rfl
  | cons c w ih =>
      rw [List.cons_append, List.dropWhile_cons, List.dropWhile_cons, ih]
      split <;> rfl

/-- Behind the digits in front of the point stands the point.  Behind those that follow it, the
bracket bounds the word. -/
theorem number_cappedFraction {front : Text} (hfront : Text.isNumeral front = true)
    (hv : Capped v) : number false (front ++ '.' :: v) = none := by
  refine number_eq_none (by decide) fun own u hu _ => ?_
  cases u with
  | cons c u =>
      have hc := isIdent_of_isNumeral hfront c (by simp [hu])
      rw [fractionWidth_of_ne (by simpa using ne_of_isIdent hc (by decide)), List.drop_zero]
      exact boundary_of_isIdent hc (by decide)
  | nil =>
      obtain ⟨w, r, -, hw, rfl⟩ := hv
      rw [List.nil_append, fractionWidth]
      split
      · rfl
      · rw [List.drop_succ_cons, Text.drop_takeWhile, dropWhile_capped]
        exact boundary_capped (fun c hc => hw c ((List.dropWhile_sublist _).mem hc)) (by decide)
          (by decide) r

/-! ## Where brackets are lists -/

/-- A list that is no segment does not start here, and no bracket ends a word, a number or a list
here. -/
structure Unlisted (after : Bool) (cs : Text) : Prop where
  opens : cs.head? = some '[' → after = true
  closes : cs.head? ≠ some ']'
  word : ¬Capped cs
  fraction : ¬CappedFraction cs

theorem boundary_square {allowed : Text} (h : cs.head? ≠ some ']') :
    boundary allowed true cs = boundary allowed false cs := by
  cases cs with
  | nil => rfl
  | cons c r =>
      have hc : (c == ']') = false := beq_eq_false_iff_ne.mpr fun heq => h (congrArg some heq)
      rw [boundary, boundary, hc]
      rfl

theorem keyword_square {spelling : Text} {t : Token} (h : ¬Capped cs) (hne : spelling ≠ [])
    (hspelling : spelling.all isIdent = true) :
    keyword spelling t true cs = keyword spelling t false cs := by
  by_cases hstart : spelling <+: cs
  · obtain ⟨rest, rfl⟩ := hstart
    rw [keyword, keyword, List.drop_left, boundary_square]
    intro hrest
    obtain ⟨r, rfl⟩ := List.head?_eq_some_iff.mp hrest
    exact h ⟨spelling, r, hne, List.all_eq_true.mp hspelling, rfl⟩
  · have hfalse : spelling.isPrefixOf cs = false :=
      Bool.eq_false_iff.mpr fun htrue => hstart (List.isPrefixOf_iff_prefix.mp htrue)
    rw [keyword, keyword, hfalse]
    rfl

theorem number_square (h : Unlisted after cs) : number true cs = number false cs := by
  rw [number, number]
  cases hwidth : numberWidth? cs with
  | none => rfl
  | some width =>
      dsimp only
      rw [boundary_square]
      intro hrest
      obtain ⟨front, tail, rfl, hnumeral, rfl⟩ := exists_of_numberWidth? hwidth
      rw [← List.drop_drop, List.drop_left] at hrest
      by_cases hdot : tail.head? = some '.'
      · obtain ⟨v, rfl⟩ := List.head?_eq_some_iff.mp hdot
        rw [fractionWidth] at hrest
        split at hrest
        · cases hrest
        · next hdigits =>
            rw [List.drop_succ_cons, Text.drop_takeWhile] at hrest
            obtain ⟨r, hr⟩ := List.head?_eq_some_iff.mp hrest
            refine h.fraction ⟨front, v, hnumeral, ⟨v.takeWhile Char.isDigit, r, ?_, ?_, ?_⟩, rfl⟩
            · exact List.ne_nil_of_length_pos (Nat.pos_of_ne_zero hdigits)
            · exact fun c hc =>
                isIdent_of_isDigit (List.all_eq_true.mp List.all_takeWhile c hc)
            · rw [← hr, List.takeWhile_append_dropWhile]
      · rw [fractionWidth_of_ne hdot, List.drop_zero] at hrest
        obtain ⟨r, rfl⟩ := List.head?_eq_some_iff.mp hrest
        exact h.word
          ⟨front, r, ne_nil_of_isNumeral hnumeral, isIdent_of_isNumeral hnumeral, rfl⟩

theorem ident_square (h : ¬Capped cs) : ident true cs = ident false cs := by
  rw [ident, ident]
  cases hname : cs.takeWhile isIdent with
  | nil => rfl
  | cons c name =>
      rw [boundary_square]
      intro hrest
      obtain ⟨r, hr⟩ := List.head?_eq_some_iff.mp hrest
      refine h ⟨c :: name, r, List.cons_ne_nil c name, ?_, ?_⟩
      · rw [← hname]
        exact List.all_eq_true.mp List.all_takeWhile
      · rw [← hname, ← hr, List.takeWhile_append_dropWhile]

theorem arrayDelimiter_square (h : Unlisted after cs) :
    arrayDelimiter true after cs = arrayDelimiter false after cs := by
  cases cs with
  | nil => rfl
  | cons c r =>
      by_cases hc : c = '['
      · subst hc
        rw [h.opens rfl]
        rfl
      · have hc' : c ≠ ']' := fun heq => h.closes (congrArg some heq)
        rw [arrayDelimiter_eq_none hc hc', arrayDelimiter_eq_none hc hc']

/-- Where no list starts or ends, the same token is read. -/
theorem readToken_square (h : Unlisted after cs) :
    readToken true after cs = readToken false after cs := by
  rw [readToken, readToken, keyword_square h.word (by decide) (by decide),
    keyword_square h.word (by decide) (by decide), keyword_square h.word (by decide) (by decide),
    keyword_square h.word (by decide) (by decide), number_square h, arrayDelimiter_square h,
    ident_square h.word]

/-- A bracket that may start a segment starts one in brackets. -/
theorem isBracketed_of_readToken {t : Token} {width : Nat}
    (h : readToken false after ('[' :: r) = some (.token t width)) : t.isBracketed = true := by
  have hread : bracketIdent ('[' :: r) = some (.token t width) := h
  obtain ⟨n, -, hn⟩ := Option.map_eq_some_iff.mp hread
  cases hn
  rfl

end Reading

namespace Scanner

open Reading

variable {square : Bool} {s s' : State} {cs rest : Text} {ls more : List Lexeme}

/-! ## Runs without a fault -/

/-- A run that ends well and has a token in front of it inside a tag reads that token. -/
theorem exists_of_fault (hmode : s.mode = .tag) (hne : cs.dropWhile isTagSpace ≠ [])
    (hfault : (scan square s cs).fault = none) : ∃ token width s' span,
      readToken square s.afterSeparator (cs.dropWhile isTagSpace) = some (.token token width) ∧
      s'.mode = modeAfter token ∧ s'.afterSeparator = token.isSeparator ∧
      scan square s cs =
        (scan square s' ((cs.dropWhile isTagSpace).drop width)).prepend [⟨token, span⟩] := by
  have hstep : step square s cs = tagStep square s cs := step_of_tag hmode
  rw [tagStep] at hstep
  obtain ⟨c, r, hcs⟩ := List.exists_cons_of_ne_nil hne
  rw [hcs] at hstep ⊢
  dsimp only at hstep
  cases hread : readToken square s.afterSeparator (c :: r) with
  | none =>
      rw [hread] at hstep
      rw [scan_of_failed hstep] at hfault
      cases hfault
  | some reading =>
      rw [hread] at hstep
      cases reading with
      | token token width => exact ⟨token, width, _, _, rfl, rfl, rfl, scan_of_step hstep⟩
      | unterminatedComment | unterminatedString =>
          rw [scan_of_failed hstep] at hfault
          cases hfault

theorem not_capped (hmode : s.mode = .tag) (hfault : (scan false s cs).fault = none) :
    ¬Capped (cs.dropWhile isTagSpace) := by
  intro h
  obtain ⟨c, r, hcs, -⟩ := h.exists_cons
  obtain ⟨_, _, _, _, hread, -⟩ := exists_of_fault hmode (by simp [hcs]) hfault
  rw [readToken_capped h] at hread
  cases hread

/-- Such a number is taken for an identifier and a point, and then no token starts. -/
theorem not_cappedFraction (hmode : s.mode = .tag) (hfault : (scan false s cs).fault = none) :
    ¬CappedFraction (cs.dropWhile isTagSpace) := by
  rintro ⟨front, v, hfront, hv, hcs⟩
  have hends : EndsWord ('.' :: v) := ⟨'.', v, rfl, by decide⟩
  obtain ⟨d, r, hd, hident⟩ := hv.exists_cons
  have hne : cs.dropWhile isTagSpace ≠ [] := by simp [hcs]
  obtain ⟨t, width, s₁, span, hread, hmode₁, -, hscan⟩ := exists_of_fault hmode hne hfault
  rw [hcs, readToken_run (ne_nil_of_isNumeral hfront) (isIdent_of_isNumeral hfront)
    (not_keyword_of_isNumeral hfront) (number_cappedFraction hfront hv) hends] at hread
  cases hread
  rw [hcs, List.drop_left] at hscan
  have hbehind : (scan false s₁ ('.' :: v)).fault = none := by
    rw [hscan] at hfault
    exact hfault
  have hdot : ('.' :: v).dropWhile isTagSpace = '.' :: v := rfl
  obtain ⟨t, width, s₂, span', hread, hmode₂, -, hscan⟩ :=
    exists_of_fault hmode₁ (by simp [hdot]) hbehind
  rw [hdot, hd, readToken_dot (ne_of_isIdent hident (by decide)) (ne_of_isIdent hident (by decide))
    (boundary_of_isIdent hident (by decide))] at hread
  cases hread
  rw [hdot, List.drop_one, List.tail_cons] at hscan
  have hlast : (scan false s₂ v).fault = none := by
    rw [hscan] at hbehind
    exact hbehind
  have hv' : v.dropWhile isTagSpace = v := by
    rw [hd, List.dropWhile_cons, isTagSpace_of_isIdent hident]
    rfl
  exact not_capped hmode₂ hlast (hv'.symm ▸ hv)

theorem unlisted_of_scan (hmode : s.mode = .tag) (hne : cs.dropWhile isTagSpace ≠ [])
    (hfault : (scan false s cs).fault = none)
    (hattached : Attached s.afterSeparator (scan false s cs).lexemes) :
    Unlisted s.afterSeparator (cs.dropWhile isTagSpace) := by
  obtain ⟨t, width, s₁, span, hread, -, -, hscan⟩ := exists_of_fault hmode hne hfault
  refine ⟨fun hopens => ?_, fun hcloses => ?_, not_capped hmode hfault,
    not_cappedFraction hmode hfault⟩
  · obtain ⟨r, hr⟩ := List.head?_eq_some_iff.mp hopens
    rw [hr] at hread
    rw [hscan] at hattached
    exact hattached.1 (isBracketed_of_readToken hread)
  · obtain ⟨r, hr⟩ := List.head?_eq_some_iff.mp hcloses
    rw [hr] at hread
    cases hread

/-! ## One move -/

theorem step_square (hfault : (scan false s cs).fault = none)
    (hattached : Attached s.afterSeparator (scan false s cs).lexemes) :
    step true s cs = step false s cs := by
  cases hmode : s.mode with
  | text => rw [step_of_text hmode, step_of_text hmode]
  | raw => rw [step_of_raw hmode, step_of_raw hmode]
  | tag =>
      have hread (hne : cs.dropWhile isTagSpace ≠ []) :
          readToken true s.afterSeparator (cs.dropWhile isTagSpace) =
            readToken false s.afterSeparator (cs.dropWhile isTagSpace) :=
        readToken_square (unlisted_of_scan hmode hne hfault hattached)
      rw [step_of_tag hmode, step_of_tag hmode, tagStep, tagStep]
      cases hcs : cs.dropWhile isTagSpace with
      | nil => rfl
      | cons c r =>
          dsimp only
          rw [← hcs, hread (by simp [hcs])]

theorem isSeparator_of_modeAfter {t : Token} (h : modeAfter t ≠ .tag) : t.isSeparator = false := by
  cases t <;> first | rfl | exact absurd rfl h

theorem afterSeparator_textStep (h : textStep s cs = .moved ls s' rest) :
    s'.afterSeparator = s.afterSeparator := by
  cases textStep_eq_moved_iff.mp h <;> rfl

/-- The state knows whether a separator is the last token.  Outside of tags it never is. -/
theorem attached_of_step (hs : s.mode ≠ .tag → s.afterSeparator = false)
    (h : step square s cs = .moved ls s' rest)
    (hattached : Attached s.afterSeparator (ls ++ more)) :
    (s'.mode ≠ .tag → s'.afterSeparator = false) ∧ Attached s'.afterSeparator more := by
  by_cases hmode : s.mode = .tag
  · rw [step_of_tag hmode] at h
    obtain ⟨token, width, -, -, rfl, rfl, -⟩ := tagStep_eq_moved_iff.mp h
    exact ⟨isSeparator_of_modeAfter, hattached.2⟩
  · have hls : ∀ l ∈ ls, l.token.isSeparator = false := fun l hl => by
      have hl := ofTag_of_step hmode h l hl
      cases htoken : l.token <;> first | rfl | (rw [htoken] at hl; cases hl)
    have hafter : s'.afterSeparator = false := by
      cases hcases : s.mode with
      | tag => exact absurd hcases hmode
      | text =>
          rw [step_of_text hcases] at h
          rw [afterSeparator_textStep h, hs hmode]
      | raw =>
          rw [step_of_raw hcases] at h
          obtain ⟨_, _, -, -, rfl, -⟩ := rawStep_eq_moved_iff.mp h
          rfl
    rw [hs hmode] at hattached
    exact ⟨fun _ => hafter, hafter ▸ hattached.of_append hls⟩

/-! ## All moves -/

/-- **The scanner reads the same tokens** where brackets are lists, if it comes to the end where
they are segments and finds no bracket there but behind a separator. -/
theorem scan_square (s : State) (cs : Text) (hs : s.mode ≠ .tag → s.afterSeparator = false)
    (hfault : (scan false s cs).fault = none)
    (hattached : Attached s.afterSeparator (scan false s cs).lexemes) :
    scan true s cs = scan false s cs := by
  have hsquare := step_square hfault hattached
  cases hstep : step false s cs with
  | finished => rw [scan_of_finished hstep, scan_of_finished (hsquare.trans hstep)]
  | failed fault => rw [scan_of_failed hstep, scan_of_failed (hsquare.trans hstep)]
  | moved ls s' rest =>
      rw [scan_of_step hstep] at hfault hattached
      obtain ⟨hs', hattached'⟩ := attached_of_step hs hstep hattached
      rw [scan_of_step hstep, scan_of_step (hsquare.trans hstep),
        scan_square s' rest hs' hfault hattached']
termination_by measure s cs
decreasing_by exact step_measure ‹_›

end Scanner

/-- A text without lists is cut alike where brackets are lists. -/
theorem tokenize_square {text : Text} (hfault : (tokenize false text).fault = none)
    (hattached : Attached false (tokenize false text).lexemes) :
    tokenize true text = tokenize false text :=
  Scanner.scan_square .initial text (fun _ => rfl) hfault hattached

/-- Where brackets are segments no list begins. -/
theorem ne_arrayOpen_of_tokenize {text : Text} {l : Lexeme}
    (hl : l ∈ (tokenize false text).lexemes) : l.token ≠ .arrayOpen := by
  refine Scanner.forall_scan (fun t => t ≠ .arrayOpen) nofun nofun ?_ .initial text l hl
  rintro after cs t width hread rfl
  have htake : cs.take width = ['['] := (Reading.all_spelled_readToken _ _ _ _ hread).2
  have hcs := List.take_append_drop width cs
  rw [htake] at hcs
  rw [← hcs] at hread
  cases Reading.isBracketed_of_readToken hread

end Stache
