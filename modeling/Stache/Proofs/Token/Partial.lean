import Stache.Proofs.Token.Joined

/-!
# Searches in the first part of a text

The scanner looks for a `{{`, for the end of a comment and for the closer of a raw block.
What it finds in the first part `q` of a text it finds at the same place in the whole text
`q ++ v`, and in front of this place it finds nothing there: a mark that the end of `q` cuts
off hides no mark behind it.

So a `{{` that the first part ends behind is read as the start of a comment that goes on, or
as a delimiter (`readToken_part`).
-/

namespace Stache

open Text

variable {square afterSeparator : Bool} {q v rest : Text} {ls before after : List Lexeme}
  {y : Lexeme}

namespace Scanner

variable {s s' : State} {cs : Text}

/-! ## The start of a tag -/

/-- What is no mark in the first part of a text but one in the whole is cut off. -/
theorem part_of_isPrefix {mark t : Text} (h : mark <+: t ++ v) (ht : ¬mark <+: t) :
    t <+: mark.dropLast := by
  have hlen : t.length < mark.length := Nat.lt_of_not_le fun hle =>
    ht (List.prefix_of_prefix_length_le h (List.prefix_append t v) hle)
  refine List.prefix_of_prefix_length_le (List.prefix_append t v)
    ((List.dropLast_prefix mark).trans h) ?_
  rw [List.length_dropLast]
  omega

/-- Some marks that hold a `{{` at their end, and nowhere else. -/
structure Marks (marks : List Text) (stop : Text → Bool) : Prop where
  iff (t : Text) : stop t = true ↔ ∃ mark ∈ marks, mark <+: t
  braces : ∀ mark ∈ marks, ['{', '{'] <:+: mark
  front : ∀ mark ∈ marks, ¬['{', '{'] <:+: mark.dropLast

theorem marks_startsTag : Marks [['{', '{']] startsTag where
  iff t := by simp [startsTag]
  braces := by decide
  front := by decide

theorem marks_startsTagOrEscape :
    Marks [['{', '{'], ['\\', '{', '{'], ['\\', '\\', '{', '{']] startsTagOrEscape where
  iff t := by simp [startsTagOrEscape, or_assoc]
  braces := by decide
  front := by decide

/-- A mark that is cut off hides no mark behind it. -/
theorem Marks.eq_false_of_suffix {marks : List Text} {stop : Text → Bool} (h : Marks marks stop)
    {t z : Text} (hlong : stop (t ++ v) = true) (ht : stop t = false) (hz : z <:+ t) :
    stop z = false := by
  obtain ⟨mark, hmem, hmark⟩ := (h.iff _).mp hlong
  have hcut : t <+: mark.dropLast := part_of_isPrefix hmark fun hmark =>
    Bool.false_ne_true (ht.symm.trans ((h.iff t).mpr ⟨mark, hmem, hmark⟩))
  refine Bool.eq_false_iff.mpr fun htrue => ?_
  obtain ⟨mark', hmem', hmark'⟩ := (h.iff z).mp htrue
  exact h.front mark hmem
    (((h.braces mark' hmem').trans hmark'.isInfix).trans (hz.isInfix.trans hcut.isInfix))

/-- A mark that is found in the first part of a text is found at the same place in the whole. -/
theorem Marks.splitBefore_part {marks : List Text} {stop : Text → Bool} (h : Marks marks stop)
    {front : Text} (hq : Text.splitBefore stop q = (front, rest)) (hne : rest ≠ []) (v : Text) :
    Text.splitBefore stop (q ++ v) = (front, rest ++ v) := by
  induction q generalizing front with
  | nil =>
      cases hq
      exact absurd rfl hne
  | cons c r ih =>
      rw [Text.splitBefore] at hq
      rw [List.cons_append, Text.splitBefore, ← List.cons_append]
      cases hstop : stop (c :: r) with
      | true =>
          rw [hstop] at hq
          cases hq
          obtain ⟨mark, hmem, hmark⟩ := (h.iff _).mp hstop
          rw [(h.iff _).mpr ⟨mark, hmem, hmark.trans (List.prefix_append _ v)⟩]
          rfl
      | false =>
          rw [hstop] at hq
          generalize hr : Text.splitBefore stop r = parts at hq
          obtain ⟨inner, after⟩ := parts
          cases hq
          have hfound : stop (Text.splitBefore stop r).2 = true :=
            Text.stop_splitBefore (by rw [hr]; exact hne)
          rw [hr] at hfound
          have hsuffix : rest <:+ c :: r := by
            rw [eq_of_splitBefore hr]
            exact List.suffix_append (c :: inner) rest
          have hlong : stop (c :: r ++ v) = false :=
            Bool.eq_false_iff.mpr fun htrue => Bool.false_ne_true
              ((h.eq_false_of_suffix htrue hstop hsuffix).symm.trans hfound)
          rw [hlong, ih hr]
          rfl

/-- A move between tags that leaves some of the first part of a text is a move in the whole. -/
theorem textStep_part (h : textStep s q = .moved ls s' rest) (hne : rest ≠ []) (v : Text) :
    textStep s (q ++ v) = .moved ls s' (rest ++ v) := by
  have hfirst {front r : Text} (hr : r ≠ []) (hq : Text.splitBefore startsTag q = (front, r)) :=
    marks_startsTag.splitBefore_part hq hr v
  rw [textStep_eq_moved_iff] at h ⊢
  cases h with
  | last => exact absurd rfl hne
  | tag hstart hcs hfront =>
      exact .tag (hstart.trans (List.prefix_append _ v)) (hfirst hne hcs) hfront
  | doubled hstart hcs hstop =>
      exact .doubled (hstart.trans (List.prefix_append _ v)) (hfirst hne hcs) hstop
  | @escaped front inner _ _ _ hcs hinner hfront hstop hstop' =>
      have hcs' := hfirst (r := ['{', '{'] ++ (inner ++ rest)) (List.cons_ne_nil _ _) hcs
      have hinner' := marks_startsTagOrEscape.splitBefore_part hinner hne v
      rw [List.append_assoc, List.append_assoc] at hcs'
      rw [List.append_assoc] at hinner'
      exact .escaped hcs' hinner' hfront hstop hstop'

/-! ## Raw blocks -/

theorem rawCloseName?_of_closer {name : Text} (hname : name.isEmpty = false)
    (hident : name.all Reading.isIdent = true) (r : Text) :
    rawCloseName? (['{', '{', '{', '{', '/'] ++ (name ++ ['}', '}', '}', '}']) ++ r) =
      some name := by
  have hstop : Reading.isIdent '}' = false := by decide
  have htake : List.takeWhile Reading.isIdent (name ++ (['}', '}', '}', '}'] ++ r)) = name := by
    rw [List.takeWhile_append_of_pos (List.all_eq_true.mp hident), List.cons_append,
      List.takeWhile_cons_of_neg (by rw [hstop]; nofun), List.append_nil]
  have hdrop : List.drop 5 (['{', '{', '{', '{', '/'] ++ (name ++ (['}', '}', '}', '}'] ++ r))) =
      name ++ (['}', '}', '}', '}'] ++ r) := rfl
  rw [List.append_assoc, List.append_assoc, rawCloseName?, if_pos (by rfl)]
  dsimp only
  rw [hdrop, ← List.drop_drop, hdrop, htake, List.drop_left, hname]
  rfl

theorem rawCloseName?_eq_some_iff {name : Text} : rawCloseName? cs = some name ↔
    name.isEmpty = false ∧ name.all Reading.isIdent = true ∧
      ['{', '{', '{', '{', '/'] ++ (name ++ ['}', '}', '}', '}']) <+: cs := by
  constructor
  · intro h
    refine ⟨?_, ?_, take_of_rawCloseName? h ▸ List.take_prefix _ _⟩
    all_goals
      simp only [rawCloseName?, Option.ite_none_right_eq_some, Option.some.injEq,
        Bool.and_eq_true, Bool.not_eq_true'] at h
      obtain ⟨-, ⟨hne, -⟩, rfl⟩ := h
    · exact hne
    · exact List.all_takeWhile
  · rintro ⟨hne, hident, r, rfl⟩
    exact rawCloseName?_of_closer hne hident r

/-- Behind the braces of a closer that is cut off no raw block ends. -/
theorem rawBody?_eq_none {depth : Nat} (h : '{' ∉ cs) : rawBody? depth cs = none := by
  cases hbody : rawBody? depth cs with
  | none => rfl
  | some found =>
      have hcloser := rawCloseName?_eq_some_iff.mp (rawCloseName?_of_rawBody? hbody)
      exact absurd ((List.drop_suffix _ cs).mem (hcloser.2.2.mem (by simp))) h

/-- A closer that is read in the first part of a text is read in the whole. -/
theorem rawCloseName?_part {name : Text} (h : rawCloseName? q = some name) (v : Text) :
    rawCloseName? (q ++ v) = some name := by
  obtain ⟨hne, hident, hcloser⟩ := rawCloseName?_eq_some_iff.mp h
  exact rawCloseName?_eq_some_iff.mpr ⟨hne, hident, hcloser.trans (List.prefix_append q v)⟩

/-- A closer that is cut off has no brace behind its first four. -/
theorem rawBody?_of_cut {depth : Nat} {name : Text} (h : rawCloseName? q = none)
    (hlong : rawCloseName? (q ++ v) = some name) : rawBody? depth (q.drop 4) = none := by
  obtain ⟨hne, hident, hcloser⟩ := rawCloseName?_eq_some_iff.mp hlong
  have hcut := part_of_isPrefix hcloser fun hcloser =>
    Option.some_ne_none _ ((rawCloseName?_eq_some_iff.mpr ⟨hne, hident, hcloser⟩).symm.trans h)
  refine rawBody?_eq_none fun hmem => ?_
  have hbrace : '{' ∈ name := by
    have hmem := (hcut.trans (List.dropLast_prefix _)).sublist.drop 4 |>.mem hmem
    simpa using hmem
  exact absurd (List.all_eq_true.mp hident _ hbrace) (by decide)

theorem rawBody?_le {depth width : Nat} {name : Text} (h : rawBody? depth cs = some (width, name)) :
    width + rawCloseWidth name ≤ cs.length := by
  have hcloser := congrArg List.length (take_of_rawCloseName? (rawCloseName?_of_rawBody? h))
  simp only [List.length_take, List.length_drop, List.length_append, List.length_cons,
    List.length_nil, rawCloseWidth] at hcloser ⊢
  omega

/-- **A raw block that ends in the first part of a text ends there in the whole text.** -/
theorem rawBody?_part {depth : Nat} {found : Nat × Text} (h : rawBody? depth q = some found)
    (v : Text) : rawBody? depth (q ++ v) = some found := by
  have hopens {cs : Text} (h : ['{', '{', '{', '{'].isPrefixOf cs = true) :
      ['{', '{', '{', '{'] <+: cs ++ v ∧ (cs ++ v).drop 4 = cs.drop 4 ++ v := by
    have hstart := List.isPrefixOf_iff_prefix.mp h
    exact ⟨hstart.trans (List.prefix_append cs v), List.drop_append_of_le_length hstart.length_le⟩
  fun_induction rawBody? depth q generalizing found with
  | case1 => cases h
  | case2 c r hopen name hname =>
      rw [rawBody?_of_closer (rawCloseName?_part hname v)]
      exact h
  | case3 c r hopen name depth hname ih =>
      obtain ⟨⟨n, name'⟩, hbody, rfl⟩ := Option.map_eq_some_iff.mp h
      have hwidth : rawCloseWidth name ≤ (c :: r).length := by
        have hcloser := congrArg List.length (take_of_rawCloseName? hname)
        simp only [List.length_take, List.length_append, List.length_cons, List.length_nil,
          rawCloseWidth] at hcloser ⊢
        omega
      rw [rawBody?_of_closer (rawCloseName?_part hname v)]
      dsimp only
      rw [List.drop_append_of_le_length hwidth, ih hbody]
      rfl
  | case4 c r hopen depth hnone depth' =>
      next ih =>
      obtain ⟨⟨n, name'⟩, hbody, rfl⟩ := Option.map_eq_some_iff.mp h
      obtain ⟨hopen', hdrop⟩ := hopens hopen
      have hnone' : rawCloseName? (c :: r ++ v) = none := by
        cases hlong : rawCloseName? (c :: r ++ v) with
        | none => rfl
        | some name => cases hbody.symm.trans (rawBody?_of_cut hnone hlong)
      have hhead : ((c :: r).drop 4 ++ v).head? = ((c :: r).drop 4).head? := by
        cases hnil : (c :: r).drop 4 with
        | nil =>
            rw [hnil, rawBody?_nil] at hbody
            cases hbody
        | cons => rfl
      rw [rawBody?_of_braces hopen' hnone', hdrop, hhead]
      exact congrArg (Option.map _) (ih hbody)
  | case5 depth c r hopen ih =>
      obtain ⟨⟨n, name'⟩, hbody, rfl⟩ := Option.map_eq_some_iff.mp h
      have hopen' : ¬['{', '{', '{', '{'] <+: c :: (r ++ v) := fun hlong => by
        have hshort := (part_of_isPrefix (t := c :: r) hlong fun hstart =>
          hopen (List.isPrefixOf_iff_prefix.mpr hstart)).length_le
        have hlen := rawBody?_le hbody
        simp only [List.length_cons, List.length_dropLast, List.length_nil, rawCloseWidth]
          at hshort hlen
        omega
      rw [List.cons_append, rawBody?_of_text hopen', ih hbody]
      rfl

end Scanner

/-! ## Delimiters -/

namespace Reading

variable {square afterSeparator : Bool} {body t X r : Text} {n width : Nat}

/-- A comment that ends in the first part of a text ends there in the whole text. -/
theorem commentWidth?_part (h : commentWidth? q = some n) (v : Text) :
    commentWidth? (q ++ v) = some n := by
  have hle := commentWidth?_le h
  have hend : EndsTag (q.take n) := endsAt_commentWidth? h
  rw [← List.take_append_drop n q] at h
  have hwhole := commentWidth?_append hend h
    (by rw [List.length_take]; exact Nat.le_min.mpr ⟨Nat.le_refl n, hle⟩) (q.drop n ++ v)
  rwa [← List.append_assoc, List.take_append_drop] at hwhole

/-- Two braces start a delimiter, four the tag of a raw block. -/
theorem readToken_braces (square afterSeparator : Bool) (r : Text) :
    readToken square afterSeparator ('{' :: '{' :: r) =
      if ['{', '{'].isPrefixOf r then some (.token .rawOpener 4)
      else opener ('{' :: '{' :: r) := by
  have hraw : fixed ['{', '{', '{', '{'] .rawOpener ('{' :: '{' :: r) =
      if ['{', '{'].isPrefixOf r then some (.token .rawOpener 4) else none := rfl
  have hcloser : fixed ['}', '}', '}', '}'] .rawCloser ('{' :: '{' :: r) = none := rfl
  rw [readToken, hraw, hcloser]
  split <;> rfl

/-- Behind the braces of a delimiter the text ends. -/
theorem opener_of_braces {front : Text} (h : Braces front []) :
    opener front = some (.token (.opener .plain front) front.length) := by
  rcases h with ⟨rfl, -⟩ | rfl <;> rfl

/-- What stands behind the braces does not matter, if it is no marker. -/
theorem Braces.congr {front r r' : Text} (h : Braces front r) (hr : r'.head? ≠ some '~') :
    Braces front r' := h.imp_left fun h => ⟨h.1, hr⟩

theorem Braces.of_prefix {front r w : Text} (h : Braces front r) (hw : w <+: front)
    (hstart : ['{', '{'] <+: w) : Braces w [] := by
  obtain ⟨u, rfl⟩ := hstart
  obtain ⟨x, hx⟩ := hw
  rcases h with ⟨rfl, -⟩ | rfl
  · obtain ⟨rfl, -⟩ : u = [] ∧ x = [] := by simpa using hx
    exact .inl ⟨rfl, nofun⟩
  · cases u with
    | nil => exact .inl ⟨rfl, nofun⟩
    | cons c u =>
        obtain ⟨rfl, rfl, -⟩ : c = '~' ∧ u = [] ∧ x = [] := by simpa using hx
        exact .inr rfl

/-- A delimiter that starts a comment is told by its `!`. -/
theorem opener_part (hq : opener (q ++ v) = some (.token (.comment t) n)) (hlt : q.length < n)
    (hstart : ['{', '{'] <+: q) : opener q = some .unterminatedComment ∨
      opener q = some (.token (.opener .plain q) q.length) := by
  cases delimiter_opener _ _ hq with
  | @comment front body k hcs hfront hcomment =>
      rcases List.append_eq_append_iff.mp hcs with ⟨w, hw, -⟩ | ⟨w, rfl, hbody⟩
      · exact .inr (opener_of_braces (hfront.of_prefix ⟨w, hw.symm⟩ hstart))
      cases w with
      | nil =>
          rw [List.append_nil]
          exact .inr (opener_of_braces (hfront.congr nofun))
      | cons c r =>
          obtain ⟨rfl, rfl⟩ := List.cons.inj hbody
          left
          rw [opener_braces (hfront.congr (by simp)), openerAt_comment]
          cases hwidth : commentWidth? r with
          | none => rfl
          | some more =>
              have hle := commentWidth?_le hwidth
              obtain rfl := Option.some.inj (hcomment.symm.trans (commentWidth?_part hwidth v))
              rw [List.length_append, List.length_cons] at hlt
              omega

/-- **A comment that the end of the text cuts off is a comment without its end, or a delimiter
that nothing follows.** -/
theorem readToken_part (hstart : ['{', '{'] <+: q) (hlt : q.length < n)
    (h : readToken square afterSeparator (q ++ v) = some (.token (.comment t) n)) :
    readToken square afterSeparator q = some .unterminatedComment ∨
      readToken square afterSeparator q = some (.token (.opener .plain q) q.length) := by
  obtain ⟨r, rfl⟩ := hstart
  simp only [List.cons_append, List.nil_append] at h hlt ⊢
  rw [readToken_braces] at h ⊢
  split at h
  · cases h
  · next hbraces =>
      have hbraces' : ¬['{', '{'].isPrefixOf r = true := fun hshort => hbraces
        (List.isPrefixOf_iff_prefix.mpr
          ((List.isPrefixOf_iff_prefix.mp hshort).trans (List.prefix_append r v)))
      rw [if_neg hbraces']
      exact opener_part (q := '{' :: '{' :: r) h hlt ⟨r, rfl⟩

end Reading

namespace Scanner

variable {square : Bool} {s s' : State} {cs : Text}

/-! ## A tag that ends in the text -/

/-- A token that ends a tag is the last one of its move, and the move ends behind it. -/
theorem last_of_step (h : step square s cs = .moved (before ++ y :: after) s' rest)
    (hy : y.token.endsTag = true) :
    after = [] ∧ s'.offset = y.span.stop ∧ (s'.mode = .text → y.token ≠ .rawCloser) := by
  rw [step] at h
  cases hmode : s.mode with
  | text =>
      rw [hmode] at h
      have hfalse := endsTag_textStep h y (List.mem_append_right _ List.mem_cons_self)
      cases hy.symm.trans hfalse
  | tag =>
      rw [hmode] at h
      obtain ⟨token, width, -, -, hls, rfl, -⟩ := tagStep_eq_moved_iff.mp h
      cases before with
      | nil =>
          obtain ⟨rfl, rfl⟩ := List.cons.inj hls
          refine ⟨rfl, rfl, ?_⟩
          rintro htext rfl
          cases htext
      | cons _ before => cases before <;> cases (List.cons.inj hls).2
  | raw =>
      rw [hmode] at h
      obtain ⟨width, name, -, hls, rfl, -⟩ := rawStep_eq_moved_iff.mp h
      rcases List.eq_nil_or_concat after with rfl | ⟨after, z, rfl⟩
      · obtain rfl : y = _ := by simpa using congrArg List.getLast? hls
        refine ⟨rfl, rfl, ?_⟩
        rintro - ⟨⟩
      · rw [List.concat_eq_append, ← List.cons_append, ← List.append_assoc] at hls
        have hfront := (List.append_inj' hls rfl).1
        have hfalse := contentLexeme_endsTag _ _ _ y
          (hfront ▸ List.mem_append_right before List.mem_cons_self)
        cases hy.symm.trans hfalse

/-- The scanner's way to the end of a tag leads over the tokens up to there. -/
theorem exists_closes_of_eq {before : List Lexeme} (square : Bool) (s : State) (cs : Text)
    (h : (scan square s cs).lexemes = before ++ y :: after) (hy : y.token.endsTag = true) :
    ∃ s' t, Closes square s' t s cs (before ++ [y]) ∧ s'.offset = y.span.stop ∧
      (s'.mode = .text → y.token ≠ .rawCloser) := by
  cases hstep : step square s cs with
  | finished =>
      rw [scan_of_finished hstep] at h
      cases before <;> cases h
  | failed fault =>
      rw [scan_of_failed hstep] at h
      cases before <;> cases h
  | moved ls s₁ rest =>
      rw [scan_of_step hstep] at h
      have hmore {ls'} (h : (scan square s₁ rest).lexemes = ls' ++ y :: after) :
          ∃ s' t, Closes square s' t s cs (ls ++ ls' ++ [y]) ∧ s'.offset = y.span.stop ∧
            (s'.mode = .text → y.token ≠ .rawCloser) := by
        obtain ⟨s', t, hcloses, hs'⟩ := exists_closes_of_eq square s₁ rest h hy
        exact ⟨s', t, List.append_assoc ls ls' [y] ▸ .more hstep hcloses, hs'⟩
      rcases List.append_eq_append_iff.mp h with ⟨ls', rfl, hls'⟩ | ⟨ls', rfl, hls'⟩
      · exact hmore hls'
      · cases ls' with
        | nil =>
            obtain ⟨s', t, hcloses, hs'⟩ := @hmore [] hls'.symm
            rw [List.append_nil, List.append_nil] at hcloses
            exact ⟨s', t, hcloses, hs'⟩
        | cons x ls' =>
            obtain ⟨rfl, -⟩ := List.cons.inj hls'
            obtain ⟨rfl, hoffset, hcloser⟩ := last_of_step hstep hy
            exact ⟨s₁, rest, .last hstep hy, hoffset, hcloser⟩
termination_by measure s cs
decreasing_by exact step_measure ‹_›

end Scanner
end Stache
