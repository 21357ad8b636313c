import Stache.Proofs.Token.Slices

/-!
# Tokens tile their text

The tokens of a template lie side by side in it, each on a slice of its own that
it can be read off.  Between them only two things are left out: tag space inside
a tag, and a backslash that keeps the `{{` right behind it from opening a tag.

`Laid` says this along the text, in the order in which the scanner moves over it.
One move keeps it (`laid_step`), so it holds for the whole scan (`laid_scan`).
The last section reads the places of the tokens and of the gaps off it.
-/

namespace Stache

/-- The tag of the token goes on behind it. -/
def Token.staysInTag (t : Token) : Bool := t.ofTag && !t.endsTag

/-- The tokens lie in a text that starts at `offset`.  `inside` says that it starts
inside a tag, and `cut` that nothing is said of what follows the last token. -/
inductive Laid (cut : Bool) : Bool → Nat → List Lexeme → Text → Prop where
  | stop {inside : Bool} {offset : Nat} {cs : Text} (h : cut = false → cs = []) :
      Laid cut inside offset [] cs
  | space {offset : Nat} {ls : List Lexeme} {c : Char} {cs : Text} (hc : isTagSpace c = true)
      (h : Laid cut true (offset + c.utf8Size) ls cs) : Laid cut true offset ls (c :: cs)
  | escape {offset stop : Nat} {t cs : Text} {ls : List Lexeme} (hcs : ['{', '{'] <+: cs)
      (h : Laid cut false (offset + 1) (⟨.content t, ⟨offset + 1, stop⟩⟩ :: ls) cs) :
      Laid cut false offset (⟨.content t, ⟨offset + 1, stop⟩⟩ :: ls) ('\\' :: cs)
  | token {inside : Bool} {offset : Nat} {t : Token} {w v : Text} {ls : List Lexeme} (hw : w ≠ [])
      (ht : t.Spells w v) (h : Laid cut t.staysInTag (offset + w.byteLength) ls v) :
      Laid cut inside offset (⟨t, ⟨offset, offset + w.byteLength⟩⟩ :: ls) (w ++ v)

variable {cut inside : Bool} {offset : Nat} {ls more : List Lexeme} {cs rest t v w : Text}

theorem Laid.spaces (hw : w.all isTagSpace = true)
    (h : Laid cut true (offset + w.byteLength) ls cs) : Laid cut true offset ls (w ++ cs) := by
  induction w generalizing offset with
  | nil => exact h
  | cons c w ih =>
      obtain ⟨hc, hw⟩ := Bool.and_eq_true_iff.mp hw
      rw [Text.byteLength_cons, ← Nat.add_assoc] at h
      exact .space hc (ih hw h)

namespace Scanner

variable {s s' : State} {t' : Token}

/-- What the scanner knows of the text in front of it: in a tag the tag has begun, or
its `{{` stands there; otherwise no tag is open. -/
def Ready (s : State) (inside : Bool) (cs : Text) : Prop :=
  match s.mode with
  | .tag => inside = true ∨ ['{', '{'] <+: cs
  | .text | .raw => inside = false

theorem ready_text (h : s.mode = .text) : Ready s false cs := by
  rw [Ready, h]

theorem ready_raw (h : s.mode = .raw) : Ready s false cs := by
  rw [Ready, h]

theorem ready_tag (h : s.mode = .tag) (hcs : inside = true ∨ ['{', '{'] <+: cs) :
    Ready s inside cs := by
  rw [Ready, h]
  exact hcs

/-! ## Pieces of a move -/

/-- A piece of text in full, which may be empty. -/
theorem laid_content (h : Laid cut false (offset + t.byteLength) more v) :
    Laid cut false offset (contentLexeme t offset (offset + t.byteLength) ++ more) (t ++ v) := by
  unfold contentLexeme
  split
  · next hempty =>
      obtain rfl := List.isEmpty_iff.mp hempty
      exact h
  · next hne => exact .token (fun hnil => hne (List.isEmpty_iff.mpr hnil)) (.inl rfl) h

/-- A piece of text in front of an escape. -/
theorem laid_escaped (ht : t ≠ []) (hv : ['{', '{'] <+: v)
    (h : Laid cut false (offset + Text.byteLength (t ++ ['\\'])) more v) :
    Laid cut inside offset
      (contentLexeme t offset (offset + Text.byteLength (t ++ ['\\'])) ++ more)
      (t ++ ['\\'] ++ v) := by
  have hne : ¬t.isEmpty = true := fun hempty => ht (List.isEmpty_iff.mp hempty)
  rw [contentLexeme, if_neg hne]
  exact .token (List.append_ne_nil_of_left_ne_nil ht _) (.inr ⟨rfl, hv⟩) h

/-- Text, and behind its backslash the text of an escaped tag. -/
theorem laid_escape {inner after : Text}
    (h : Laid cut false
      (offset + Text.byteLength (t ++ ['\\']) + Text.byteLength (['{', '{'] ++ inner)) more after) :
    Laid cut false offset
      (contentLexeme t offset (offset + Text.byteLength (t ++ ['\\'])) ++
        (contentLexeme (['{', '{'] ++ inner) (offset + Text.byteLength (t ++ ['\\']))
          (offset + Text.byteLength (t ++ ['\\']) + Text.byteLength (['{', '{'] ++ inner)) ++ more))
      (t ++ ['\\'] ++ (['{', '{'] ++ inner ++ after)) := by
  have hstart : ['{', '{'] <+: ['{', '{'] ++ inner ++ after := by
    rw [List.append_assoc]
    exact List.prefix_append _ _
  have htag := laid_content h
  cases t with
  | nil => exact .escape hstart htag
  | cons c t => exact laid_escaped (List.cons_ne_nil c t) hstart htag

/-! ## Moves -/

theorem laid_textStep (hmode : s.mode = .text) (h : textStep s cs = .moved ls s' rest)
    (hmore : ∀ {inside}, Ready s' inside rest → Laid cut inside s'.offset more rest) :
    Laid cut false s.offset (ls ++ more) cs := by
  cases textStep_eq_moved_iff.mp h with
  | last =>
      have hlaid := laid_content (hmore (ready_text hmode))
      rwa [List.append_nil] at hlaid
  | tag hstart hcs =>
      rw [eq_of_splitBefore hcs]
      exact laid_content (hmore (ready_tag rfl (.inr hstart)))
  | @doubled front _ stop hstart hcs hstop =>
      have hback : front ++ ['\\', '\\'] = front ++ ['\\'] ++ ['\\'] := List.append_cons _ _ _
      rw [eq_of_splitBefore hcs]
      rw [hback] at hstop ⊢
      subst hstop
      exact laid_escaped (List.append_ne_nil_of_right_ne_nil _ (List.cons_ne_nil _ _)) hstart
        (hmore (ready_tag rfl (.inr hstart)))
  | @escaped front inner _ _ _ hcs _ _ hstop hstop' =>
      subst hstop hstop'
      rw [eq_of_splitBefore hcs, List.append_assoc (contentLexeme _ _ _), ← List.append_assoc _ inner]
      exact laid_escape (hmore (ready_text hmode))

/-- Behind a token of a tag that does not end it the tag goes on. -/
theorem staysInTag_of_modeAfter (htag : t'.ofTag = true) (h : modeAfter t' = .tag) :
    t'.staysInTag = true := by
  cases t' with
  | content | rawEnd => cases htag
  | _ => first | rfl | cases h

theorem staysInTag_of_modeAfter_ne (h : modeAfter t' ≠ .tag) : t'.staysInTag = false := by
  cases t' <;> first | rfl | exact absurd rfl h

theorem ready_staysInTag (htag : t'.ofTag = true) (hmode : s.mode = modeAfter t') :
    Ready s t'.staysInTag cs := by
  cases hafter : modeAfter t' with
  | tag => exact ready_tag (hmode.trans hafter) (.inl (staysInTag_of_modeAfter htag hafter))
  | text =>
      rw [staysInTag_of_modeAfter_ne (by rw [hafter]; nofun)]
      exact ready_text (hmode.trans hafter)
  | raw =>
      rw [staysInTag_of_modeAfter_ne (by rw [hafter]; nofun)]
      exact ready_raw (hmode.trans hafter)

theorem laid_tagStep {square : Bool} (hmode : s.mode = .tag) (hready : Ready s inside cs)
    (h : tagStep square s cs = .moved ls s' rest)
    (hmore : ∀ {inside}, Ready s' inside rest → Laid cut inside s'.offset more rest) :
    Laid cut inside s.offset (ls ++ more) cs := by
  obtain ⟨t, width, hread, hne, rfl, rfl, rfl⟩ := tagStep_eq_moved_iff.mp h
  have hcs : cs.takeWhile isTagSpace ++ cs.dropWhile isTagSpace = cs :=
    List.takeWhile_append_dropWhile
  have hspace : (cs.takeWhile isTagSpace).all isTagSpace = true := List.all_takeWhile
  have hinside : inside = true ∨ cs.takeWhile isTagSpace = [] := by
    rw [Ready, hmode] at hready
    rcases hready with hinside | hstart
    · exact .inl hinside
    · obtain ⟨tail, rfl⟩ := hstart
      exact .inr rfl
  generalize cs.takeWhile isTagSpace = space at hcs hspace hinside hmore ⊢
  generalize cs.dropWhile isTagSpace = body at hread hne hcs hmore ⊢
  subst hcs
  obtain ⟨htag, hspells⟩ := Reading.all_spelled_readToken _ _ _ _ hread
  have hwidth : 0 < width := Reading.allProper_readToken _ _ _ _ hread
  have htake : body.take width ≠ [] := by
    rw [Ne, List.take_eq_nil_iff, not_or]
    exact ⟨Nat.ne_of_gt hwidth, hne⟩
  have htoken (inside : Bool) : Laid cut inside _ (⟨t, _⟩ :: more) _ :=
    .token htake hspells (hmore (ready_staysInTag htag rfl))
  rw [List.take_append_drop] at htoken
  rcases hinside with rfl | rfl
  · exact .spaces hspace (htoken true)
  · exact htoken inside

/-! ## Raw blocks -/

/-- The body of a raw block ends in front of a closer. -/
theorem rawCloseName?_of_rawBody? {depth width : Nat} {name : Text}
    (h : rawBody? depth cs = some (width, name)) : rawCloseName? (cs.drop width) = some name := by
  fun_induction rawBody? depth cs generalizing width with
  | case1 => cases h
  | case2 c r hopen name' hname =>
      cases h
      exact hname
  | case3 c r hopen name' depth hname ih =>
      obtain ⟨⟨more, name'⟩, hmore, heq⟩ := Option.map_eq_some_iff.mp h
      cases heq
      rw [Nat.add_comm, ← List.drop_drop]
      exact ih hmore
  | case4 c r hopen depth hnone depth' =>
      next ih =>
      obtain ⟨⟨more, name'⟩, hmore, heq⟩ := Option.map_eq_some_iff.mp h
      cases heq
      rw [Nat.add_comm, ← List.drop_drop]
      exact ih hmore
  | case5 depth c r hopen ih =>
      obtain ⟨⟨more, name'⟩, hmore, heq⟩ := Option.map_eq_some_iff.mp h
      cases heq
      exact ih hmore

theorem take_of_rawCloseName? {name : Text} (h : rawCloseName? cs = some name) :
    cs.take (rawCloseWidth name) =
      ['{', '{', '{', '{', '/'] ++ (name ++ ['}', '}', '}', '}']) := by
  rw [rawCloseName?] at h
  split at h
  · next hstart =>
      obtain ⟨tail, rfl⟩ := List.isPrefixOf_iff_prefix.mp hstart
      have hdrop : List.drop 5 (['{', '{', '{', '{', '/'] ++ tail) = tail := rfl
      dsimp only at h
      rw [hdrop, ← List.drop_drop, hdrop] at h
      simp only [Option.ite_none_right_eq_some, Option.some.injEq, Bool.and_eq_true] at h
      obtain ⟨⟨-, hend⟩, rfl⟩ := h
      obtain ⟨more, hmore⟩ := List.takeWhile_prefix Reading.isIdent (l := tail)
      generalize tail.takeWhile Reading.isIdent = name at hend hmore ⊢
      subst hmore
      rw [List.drop_left] at hend
      obtain ⟨v, rfl⟩ := List.isPrefixOf_iff_prefix.mp hend
      rw [← List.append_assoc name, ← List.append_assoc]
      refine List.take_left' ?_
      simp [rawCloseWidth]
  · cases h

theorem laid_rawStep (h : rawStep s cs = .moved ls s' rest)
    (hmore : ∀ {inside}, Ready s' inside rest → Laid cut inside s'.offset more rest) :
    Laid cut false s.offset (ls ++ more) cs := by
  obtain ⟨width, name, hbody, rfl, rfl, rfl⟩ := rawStep_eq_moved_iff.mp h
  have hcloser := take_of_rawCloseName? (rawCloseName?_of_rawBody? hbody)
  have hne : (cs.drop width).take (rawCloseWidth name) ≠ [] := by
    rw [hcloser]
    exact List.cons_ne_nil _ _
  have hend : Laid cut false _ (⟨.rawEnd name, _⟩ :: more) _ :=
    .token hne hcloser (hmore (ready_text rfl))
  have hlaid := laid_content hend
  rw [← List.drop_drop, List.take_append_drop, List.take_append_drop] at hlaid
  rw [List.append_assoc]
  exact hlaid

/-! ## All moves -/

/-- One move puts its tokens in front of those of the rest. -/
theorem laid_step {square : Bool} (hready : Ready s inside cs)
    (h : step square s cs = .moved ls s' rest)
    (hmore : ∀ {inside}, Ready s' inside rest → Laid cut inside s'.offset more rest) :
    Laid cut inside s.offset (ls ++ more) cs := by
  rw [step] at h
  cases hmode : s.mode with
  | text =>
      rw [hmode] at h
      rw [Ready, hmode] at hready
      obtain rfl := hready
      exact laid_textStep hmode h hmore
  | tag =>
      rw [hmode] at h
      exact laid_tagStep hmode hready h hmore
  | raw =>
      rw [hmode] at h
      rw [Ready, hmode] at hready
      obtain rfl := hready
      exact laid_rawStep h hmore

/-- Where the scanner is done, only tag space is left. -/
theorem laid_finished {square : Bool} (hready : Ready s inside cs)
    (h : step square s cs = .finished) : Laid cut inside s.offset [] cs := by
  rw [step] at h
  cases hmode : s.mode with
  | text =>
      rw [hmode] at h
      exact .stop fun _ => eq_nil_of_textStep h
  | tag =>
      have hcs : cs.takeWhile isTagSpace ++ cs.dropWhile isTagSpace = cs :=
        List.takeWhile_append_dropWhile
      rw [hmode, tagStep] at h
      dsimp only at h
      split at h
      · next hrest =>
          rw [Ready, hmode] at hready
          rcases hready with rfl | hstart
          · rw [hrest] at hcs
            rw [← hcs]
            exact .spaces List.all_takeWhile (.stop fun _ => rfl)
          · obtain ⟨tail, rfl⟩ := hstart
            cases hrest
      · split at h <;> cases h
  | raw =>
      rw [hmode, rawStep] at h
      dsimp only at h
      split at h <;> cases h

theorem laid_scan (square : Bool) (s : State) (cs : Text) {inside : Bool}
    (hready : Ready s inside cs) :
    Laid (scan square s cs).fault.isSome inside s.offset (scan square s cs).lexemes cs := by
  rw [scan]
  split
  · next hstep => exact laid_finished hready hstep
  · exact .stop fun h => absurd h.symm Bool.false_ne_true
  · next ls s' rest hstep =>
      exact laid_step hready hstep fun hready' => laid_scan square s' rest hready'
termination_by measure s cs
decreasing_by exact step_measure ‹_›

end Scanner

/-! ## Places -/

/-- Every token lies on a slice that it can be read off. -/
theorem Laid.exists_slice (h : Laid cut inside offset ls cs) : ∀ x ∈ ls, ∃ u w v,
    cs = u ++ (w ++ v) ∧ w ≠ [] ∧
      x.span = ⟨offset + u.byteLength, offset + Text.byteLength (u ++ w)⟩ ∧
      x.token.Spells w v := by
  induction h with
  | stop => nofun
  | @space offset ls c cs _ _ ih =>
      intro x hx
      obtain ⟨u, w, v, rfl, hw, hspan, ht⟩ := ih x hx
      refine ⟨c :: u, w, v, rfl, hw, ?_, ht⟩
      rw [hspan, List.cons_append, Text.byteLength_cons, Text.byteLength_cons, Nat.add_assoc,
        Nat.add_assoc]
  | @escape offset stop t cs ls _ _ ih =>
      intro x hx
      obtain ⟨u, w, v, rfl, hw, hspan, ht⟩ := ih x hx
      refine ⟨'\\' :: u, w, v, rfl, hw, ?_, ht⟩
      rw [hspan, List.cons_append, Text.byteLength_cons, Text.byteLength_cons, Nat.add_assoc,
        Nat.add_assoc]
      rfl
  | @token inside offset t w v ls hw ht _ ih =>
      intro x hx
      rcases List.mem_cons.mp hx with rfl | hx
      · exact ⟨[], w, v, rfl, hw, rfl, ht⟩
      · obtain ⟨u, w', v', rfl, hw', hspan, ht'⟩ := ih x hx
        refine ⟨w ++ u, w', v', (List.append_assoc _ _ _).symm, hw', ?_, ht'⟩
        simp only [hspan, List.append_assoc, Text.byteLength_append, Nat.add_assoc]

theorem Laid.start_le_stop (h : Laid cut inside offset ls cs) :
    ∀ x ∈ ls, x.span.start ≤ x.span.stop := by
  intro x hx
  obtain ⟨u, w, v, -, -, hspan, -⟩ := h.exists_slice x hx
  rw [hspan, Text.byteLength_append]
  exact Nat.add_le_add_left (Nat.le_add_right _ _) _

theorem Laid.stop_le (h : Laid cut inside offset ls cs) :
    ∀ x ∈ ls, x.span.stop ≤ offset + cs.byteLength := by
  intro x hx
  obtain ⟨u, w, v, rfl, -, hspan, -⟩ := h.exists_slice x hx
  rw [hspan, ← List.append_assoc, Text.byteLength_append (u ++ w)]
  exact Nat.add_le_add_left (Nat.le_add_right _ _) _

theorem Laid.le_start (h : Laid cut inside offset ls cs) : ∀ x ∈ ls, offset ≤ x.span.start := by
  intro x hx
  obtain ⟨u, w, v, -, -, hspan, -⟩ := h.exists_slice x hx
  rw [hspan]
  exact Nat.le_add_right _ _

/-- No token starts before the one in front of it has ended. -/
theorem Laid.ordered (h : Laid cut inside offset ls cs) :
    ls.Pairwise fun x y => x.span.stop ≤ y.span.start := by
  induction h with
  | stop => exact .nil
  | space _ _ ih | escape _ _ ih => exact ih
  | token _ _ h ih => exact .cons h.le_start ih

/-! ## Gaps -/

/-- A token covers the bytes from `start` to `stop`. -/
def CoveredBy (ls : List Lexeme) (start stop : Nat) : Prop :=
  ∃ x ∈ ls, x.span.start ≤ start ∧ stop ≤ x.span.stop

/-- The bytes from `start` to `stop` stand inside a tag: the last token before them is of
a tag and does not end it. -/
def InsideTag (ls : List Lexeme) (start stop : Nat) : Prop :=
  ∃ before x after, ls = before ++ x :: after ∧ x.token.staysInTag = true ∧
    x.span.stop ≤ start ∧ ∀ y ∈ after, stop ≤ y.span.start

/-- A piece of text starts at the given place. -/
def ContentAt (ls : List Lexeme) (start : Nat) : Prop :=
  ∃ x ∈ ls, (∃ t, x.token = .content t) ∧ x.span.start = start

theorem CoveredBy.cons {start stop : Nat} {x : Lexeme} (h : CoveredBy ls start stop) :
    CoveredBy (x :: ls) start stop := by
  obtain ⟨y, hy, hcover⟩ := h
  exact ⟨y, List.mem_cons_of_mem x hy, hcover⟩

theorem InsideTag.cons {start stop : Nat} {x : Lexeme} (h : InsideTag ls start stop) :
    InsideTag (x :: ls) start stop := by
  obtain ⟨before, y, after, rfl, hy⟩ := h
  exact ⟨x :: before, y, after, rfl, hy⟩

theorem ContentAt.cons {start : Nat} {x : Lexeme} (h : ContentAt ls start) :
    ContentAt (x :: ls) start := by
  obtain ⟨y, hy, hcontent⟩ := h
  exact ⟨y, List.mem_cons_of_mem x hy, hcontent⟩

/-- A text cut at a character and cut elsewhere. -/
theorem exists_of_append_eq {u v v' : Text} {c : Char} (h : w ++ v' = u ++ c :: v) :
    (∃ u', u = w ++ u' ∧ v' = u' ++ c :: v) ∨ ∃ w', w = u ++ c :: w' := by
  rcases List.append_eq_append_iff.mp h with ⟨u', rfl, rfl⟩ | ⟨w', rfl, hw⟩
  · exact .inl ⟨u', rfl, rfl⟩
  · cases w' with
    | nil => exact .inl ⟨[], (List.append_nil _).symm.trans (by simp), hw.symm⟩
    | cons d w' =>
        cases hw
        exact .inr ⟨w', rfl⟩

/-- A character that no token covers is tag space inside a tag, which may have begun
before the text, or the backslash of an escape. -/
theorem Laid.gap (h : Laid cut inside offset ls cs) {u v : Text} {c : Char}
    (hcs : cs = u ++ c :: v)
    (hlast : cut = false ∨ ∃ x ∈ ls, offset + u.byteLength < x.span.stop) :
    CoveredBy ls (offset + u.byteLength) (offset + u.byteLength + c.utf8Size) ∨
      isTagSpace c = true ∧
        (InsideTag ls (offset + u.byteLength) (offset + u.byteLength + c.utf8Size) ∨
          inside = true ∧ ∀ y ∈ ls, offset + u.byteLength + c.utf8Size ≤ y.span.start) ∨
      c = '\\' ∧ ['{', '{'] <+: v ∧ ContentAt ls (offset + u.byteLength + 1) := by
  induction h generalizing u with
  | stop hstop =>
      rcases hlast with hcut | ⟨x, hx, -⟩
      · rw [hstop hcut] at hcs
        exact absurd hcs.symm (List.append_ne_nil_of_right_ne_nil u (List.cons_ne_nil c v))
      · cases hx
  | @space offset ls d cs hd h ih =>
      cases u with
      | nil =>
          cases hcs
          exact .inr (.inl ⟨hd, .inr ⟨rfl, h.le_start⟩⟩)
      | cons _ u =>
          cases hcs
          rw [Text.byteLength_cons, ← Nat.add_assoc] at hlast ⊢
          exact ih rfl hlast
  | @escape offset stop t cs ls hstart h ih =>
      cases u with
      | nil =>
          cases hcs
          exact .inr (.inr ⟨rfl, hstart, _, List.mem_cons_self, ⟨t, rfl⟩, rfl⟩)
      | cons _ u =>
          cases hcs
          rw [Text.byteLength_cons, ← Nat.add_assoc] at hlast ⊢
          exact ih rfl hlast
  | @token inside offset t w v' ls hw ht h ih =>
      rcases exists_of_append_eq hcs with ⟨u', rfl, rfl⟩ | ⟨w', rfl⟩
      · have hlast' : cut = false ∨ ∃ x ∈ ls,
            offset + w.byteLength + Text.byteLength u' < x.span.stop := by
          rcases hlast with hcut | ⟨x, hx, hlt⟩
          · exact .inl hcut
          · rw [Text.byteLength_append, ← Nat.add_assoc] at hlt
            rcases List.mem_cons.mp hx with rfl | hx
            · exact absurd hlt (Nat.not_lt.mpr (Nat.le_add_right _ _))
            · exact .inr ⟨x, hx, hlt⟩
        rw [Text.byteLength_append, ← Nat.add_assoc]
        rcases ih rfl hlast' with hcover | ⟨hspace, hinside | ⟨hstays, hahead⟩⟩ | hescape
        · exact .inl hcover.cons
        · exact .inr (.inl ⟨hspace, .inl hinside.cons⟩)
        · refine .inr (.inl ⟨hspace, .inl ⟨[], _, ls, rfl, hstays, ?_, hahead⟩⟩)
          exact Nat.le_add_right _ _
        · exact .inr (.inr ⟨hescape.1, hescape.2.1, hescape.2.2.cons⟩)
      · refine .inl ⟨_, List.mem_cons_self, Nat.le_add_right _ _, ?_⟩
        simp only [Text.byteLength_append, Text.byteLength_cons]
        omega

/-- **The tokens of a text tile it.**  Each token lies on a slice that is not empty and
that it can be read off, and the slices follow one another.  A character that no token
covers, in front of the end of the last token or anywhere if nothing stops the scanner,
is tag space inside a tag or a backslash whose tag follows as text. -/
theorem tokenize_tiles (square : Bool) (text : Text) :
    (∀ x ∈ (tokenize square text).lexemes, ∃ u w v, text = u ++ (w ++ v) ∧ w ≠ [] ∧
        x.span = ⟨u.byteLength, Text.byteLength (u ++ w)⟩ ∧ x.token.Spells w v) ∧
      (tokenize square text).lexemes.Pairwise (fun x y => x.span.stop ≤ y.span.start) ∧
      ∀ u c v, text = u ++ c :: v →
        ((tokenize square text).fault = none ∨
          ∃ x ∈ (tokenize square text).lexemes, Text.byteLength u < x.span.stop) →
        CoveredBy (tokenize square text).lexemes u.byteLength (Text.byteLength (u ++ [c])) ∨
          isTagSpace c = true ∧
            InsideTag (tokenize square text).lexemes u.byteLength (Text.byteLength (u ++ [c])) ∨
          c = '\\' ∧ ['{', '{'] <+: v ∧
            ContentAt (tokenize square text).lexemes (Text.byteLength (u ++ [c])) := by
  have hlaid : Laid _ false 0 (tokenize square text).lexemes text :=
    Scanner.laid_scan square .initial text rfl
  refine ⟨fun x hx => ?_, hlaid.ordered, fun u c v htext hlast => ?_⟩
  · obtain ⟨u, w, v, htext, hw, hspan, ht⟩ := hlaid.exists_slice x hx
    rw [Nat.zero_add, Nat.zero_add] at hspan
    exact ⟨u, w, v, htext, hw, hspan, ht⟩
  · have hlast' : (tokenize square text).fault.isSome = false ∨
        ∃ x ∈ (tokenize square text).lexemes, 0 + u.byteLength < x.span.stop := by
      rw [Nat.zero_add]
      exact hlast.imp_left fun hfault => by rw [hfault]; rfl
    have hend : Text.byteLength (u ++ [c]) = u.byteLength + c.utf8Size := by simp
    have hgap := hlaid.gap htext hlast'
    rw [Nat.zero_add] at hgap
    rw [hend]
    rcases hgap with hcover | ⟨hspace, hinside | ⟨hfalse, -⟩⟩ | ⟨rfl, hescape⟩
    · exact .inl hcover
    · exact .inr (.inl ⟨hspace, hinside⟩)
    · cases hfalse
    · exact .inr (.inr ⟨rfl, hescape⟩)

end Stache
