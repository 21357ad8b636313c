import Stache.Proofs.Token.Closes
import Stache.Proofs.Token.Words

/-!
# The text of a path

A path is written as segments with separators between them.  `PathText` holds the segments, and
the proof that each of them may stand where it does.  In a tag the scanner cuts its text into the
tokens of the segments and of the separators, one by one (`tokenize_pathTag`).

A dot is read by what stands behind it.  So `..` and a `.` of its own have only slashes next to
them, and no other segment starts with a dot.
-/

namespace Stache

/-! ## Paths as they are written -/

/-- A segment of a path as it is written. -/
inductive SegmentText where
  /-- `..` -/
  | up
  /-- `.` -/
  | here
  /-- `this` -/
  | this
  | word (name : Text)
  /-- A name in brackets. -/
  | bracketed (name : Text)
deriving DecidableEq, Repr

namespace SegmentText

/-- The segment as it is written. -/
def written : SegmentText → Text
  | .up => ['.', '.']
  | .here => ['.']
  | .this => ['t', 'h', 'i', 's']
  | .word name => name
  | .bracketed name => '[' :: (name ++ [']'])

/-- The segment without brackets. -/
def part : SegmentText → Text
  | .bracketed name => name
  | s => s.written

/-- The segment is `..` or `.`, without brackets. -/
def isDots : SegmentText → Bool
  | .up | .here => true
  | _ => false

/-- The segment names something. -/
def isNamed : SegmentText → Bool
  | .word _ | .bracketed _ => true
  | _ => false

/-- A word is none of the other segments, and what stands in brackets closes none. -/
def Valid : SegmentText → Prop
  | .word name => name.IsWord ∧ name ≠ ['t', 'h', 'i', 's']
  | .bracketed name => ']' ∉ name ∧ '\\' ∉ name
  | _ => True

/-- The separator may stand between the two segments. -/
structure Joins (s : SegmentText) (kind : Separator) (s' : SegmentText) : Prop where
  slash : s.isDots = true ∨ s'.isDots = true → kind = .slash
  named : kind = .member → s'.isNamed = true

/-- The segments may stand behind a segment. -/
inductive Continues : SegmentText → List (Separator × SegmentText) → Prop where
  | nil {s : SegmentText} : Continues s []
  | cons {s s' : SegmentText} {kind : Separator} {more : List (Separator × SegmentText)}
      (hjoins : Joins s kind s') (hs' : s'.Valid) (h : Continues s' more) :
      Continues s ((kind, s') :: more)

end SegmentText

/-- A path as it is written. -/
structure PathText where
  /-- It starts with `@`. -/
  data : Bool
  first : SegmentText
  /-- The other segments, each with what stands in front of it. -/
  more : List (Separator × SegmentText)
  valid : first.Valid
  continues : first.Continues more

namespace PathText

/-- The text of the segments behind the first one. -/
def moreText (more : List (Separator × SegmentText)) : Text :=
  more.flatMap fun x => x.1.text ++ x.2.written

/-- The tokens of the segments behind the first one. -/
def moreTokens (more : List (Separator × SegmentText)) : List Token :=
  more.flatMap fun x => [.separator x.1, .ident x.2.written]

/-- The text of a path. -/
def text (p : PathText) : Text :=
  (if p.data then ['@'] else []) ++ (p.first.written ++ moreText p.more)

/-- The tokens of a path. -/
def tokens (p : PathText) : List Token :=
  (if p.data then [.data] else []) ++ .ident p.first.written :: moreTokens p.more

/-- The template `{{f path}}`. -/
def template (p : PathText) : Text := ['{', '{', 'f', ' '] ++ (p.text ++ ['}', '}'])

end PathText

/-! ## Reading a segment -/

namespace Reading

variable {c : Char} {name r rest : Text} {after : Bool}

theorem isWord_this : Text.IsWord ['t', 'h', 'i', 's'] := by decide

theorem bracketWidth?_closed (h : ']' ∉ name) (h' : '\\' ∉ name) :
    bracketWidth? (name ++ ']' :: rest) = some (name.length + 1) := by
  induction name with
  | nil => rfl
  | cons c name ih =>
      obtain ⟨hc, hname⟩ := not_or.mp (mt List.mem_cons.mpr h)
      obtain ⟨hc', hname'⟩ := not_or.mp (mt List.mem_cons.mpr h')
      rw [List.cons_append, bracketWidth?, ih hname hname']
      · rfl
      · exact fun heq => hc heq.symm
      · exact fun _ heq _ => hc' heq.symm

theorem unescapeBracket_eq_self (h : '\\' ∉ name) : unescapeBracket name = name := by
  induction name with
  | nil => rfl
  | cons c name ih =>
      obtain ⟨hc, hname⟩ := not_or.mp (mt List.mem_cons.mpr h)
      rw [unescapeBracket, ih hname]
      · exact fun _ heq _ => hc heq.symm
      · exact fun _ heq _ => hc heq.symm

theorem readToken_bracketed (h : ']' ∉ name) (h' : '\\' ∉ name) :
    readToken false after ('[' :: (name ++ [']']) ++ rest) =
      some (.token (.ident ('[' :: (name ++ [']']))) (name.length + 2)) := by
  have hrest : '[' :: (name ++ [']']) ++ rest = '[' :: (name ++ ']' :: rest) := by simp
  have hkept : '\\' ∉ '[' :: (name ++ [']']) := by
    simpa using h'
  have htake : ('[' :: (name ++ ']' :: rest)).take (name.length + 1 + 1) =
      '[' :: (name ++ [']']) := by
    rw [← hrest]
    exact List.take_left' (by simp)
  show bracketIdent ('[' :: (name ++ [']']) ++ rest) = _
  rw [hrest, bracketIdent, bracketWidth?_closed h h', Option.map_some, htake,
    unescapeBracket_eq_self hkept]

/-- A dot in front of what is no dot and may not follow an identifier separates. -/
theorem readToken_dot (hc : c ≠ '.') (hc' : c ≠ '#')
    (hboundary : boundary afterIdent false (c :: r) = false) :
    readToken false after ('.' :: c :: r) = some (.token (.separator .dot) 1) := by
  have hdots : dots ('.' :: c :: r) = some (.token (.separator .dot) 1) := by
    unfold dots
    split
    · next heq => exact absurd (List.cons.inj (List.cons.inj heq).2).1 hc
    · next heq =>
        obtain ⟨-, rfl⟩ := List.cons.inj heq
        rw [if_neg (by rw [hboundary]; exact Bool.false_ne_true)]
        split
        · next heq => exact absurd (List.cons.inj heq).1 hc'
        · rfl
    · next heq => exact absurd (List.cons.inj heq).1 (by decide)
    · next hdot _ => exact absurd rfl (hdot _)
  show (dots ('.' :: c :: r) <|> _) = _
  rw [hdots]
  rfl

end Reading

/-! ## Reading a path -/

open Reading

namespace SegmentText

variable {s s' : SegmentText} {kind : Separator} {more : List (Separator × SegmentText)} {v : Text}
  {after : Bool}

/-- Behind a segment of a path stands what ends a word. -/
theorem endsWord_more (more : List (Separator × SegmentText)) (v : Text) :
    EndsWord (PathText.moreText more ++ '}' :: v) := by
  cases more with
  | nil => exact ⟨'}', v, rfl, by decide⟩
  | cons x more =>
      obtain ⟨kind, s⟩ := x
      cases kind with
      | dot | member => exact ⟨'.', _, rfl, by decide⟩
      | slash => exact ⟨'/', _, rfl, by decide⟩

/-- Behind a segment of dots stands a slash or the end of the tag. -/
theorem Continues.exists_behind (h : Continues s more) (hs : s.isDots = true) (v : Text) :
    ∃ c r, PathText.moreText more ++ '}' :: v = c :: r ∧ c ∈ ['/', '}'] := by
  cases h with
  | nil => exact ⟨'}', v, rfl, by decide⟩
  | cons hjoins _ _ =>
      obtain rfl := hjoins.slash (.inl hs)
      exact ⟨'/', _, rfl, by decide⟩

theorem readToken_segment (hs : s.Valid) (h : Continues s more) :
    readToken false after (s.written ++ (PathText.moreText more ++ '}' :: v)) =
      some (.token (.ident s.written) s.written.length) := by
  cases s with
  | up => rfl
  | here =>
      obtain ⟨c, r, hcons, hc⟩ := h.exists_behind rfl v
      rw [hcons]
      simp only [List.mem_cons, List.not_mem_nil, or_false] at hc
      rcases hc with rfl | rfl <;> rfl
  | this => exact readToken_word isWord_this (endsWord_more more v)
  | word name => exact readToken_word hs.1 (endsWord_more more v)
  | bracketed name =>
      rw [written, readToken_bracketed hs.1 hs.2]
      simp

/-- A segment that is not of dots starts with a character of a word or with a bracket. -/
theorem Valid.exists_written (hs : s.Valid) (hdots : s.isDots = false) :
    ∃ c r, s.written = c :: r ∧ (isIdent c = true ∨ c = '[') := by
  cases s with
  | up | here => cases hdots
  | this => exact ⟨'t', _, rfl, .inl rfl⟩
  | word name =>
      obtain ⟨c, r, rfl⟩ := List.exists_cons_of_ne_nil hs.1.ne_nil
      exact ⟨c, r, rfl, .inl (hs.1.ident c List.mem_cons_self)⟩
  | bracketed name => exact ⟨'[', _, rfl, .inr rfl⟩

theorem readToken_separator (hjoins : Joins s kind s') (hs' : s'.Valid) (v : Text) :
    readToken false after (kind.text ++ (s'.written ++ v)) =
      some (.token (.separator kind) kind.text.length) := by
  cases kind with
  | slash | member => rfl
  | dot =>
      have hdots : s'.isDots = false :=
        Bool.eq_false_iff.mpr fun hdots => nomatch hjoins.slash (.inr hdots)
      obtain ⟨c, r, hcons, hc⟩ := hs'.exists_written hdots
      rw [hcons]
      rcases hc with hc | rfl
      · exact readToken_dot (ne_of_isIdent hc (by decide)) (ne_of_isIdent hc (by decide))
          (boundary_of_isIdent hc (by decide))
      · rfl

theorem Valid.written_head (hs : s.Valid) : ∃ c r, s.written = c :: r ∧ isTagSpace c = false := by
  cases s with
  | word name =>
      obtain ⟨c, r, rfl⟩ := List.exists_cons_of_ne_nil hs.1.ne_nil
      exact ⟨c, r, rfl, isTagSpace_of_isIdent (hs.1.ident c List.mem_cons_self)⟩
  | up | here | this | bracketed => exact ⟨_, _, rfl, rfl⟩

end SegmentText

/-! ## Scanning a path -/

namespace Scanner

variable {square : Bool} {s s' : State} {cs cs' v : Text} {ts ts' : List Token}

/-- Inside a tag the scanner reads the tokens `ts` off `cs`, in front of `v`. -/
def Takes (square : Bool) (v cs : Text) (ts : List Token) : Prop :=
  ∀ ⦃s : State⦄, s.mode = .tag → ∃ ls s',
    scan square s (cs ++ v) = (scan square s' v).prepend ls ∧ s'.mode = .tag ∧
      ls.map Lexeme.token = ts

theorem Takes.nil : Takes square v [] [] := fun s hs => ⟨[], s, rfl, hs, rfl⟩

theorem Takes.append (h : Takes square (cs' ++ v) cs ts) (h' : Takes square v cs' ts') :
    Takes square v (cs ++ cs') (ts ++ ts') := by
  intro s hs
  obtain ⟨ls, s', hscan, hs', rfl⟩ := h hs
  obtain ⟨ls', s'', hscan', hs'', rfl⟩ := h' hs'
  refine ⟨ls ++ ls', s'', ?_, hs'', List.map_append⟩
  rw [List.append_assoc, hscan, hscan', Lexing.prepend_prepend]

/-- Where no space is to be skipped, a move takes one token. -/
theorem exists_step_token {c : Char} {r : Text} {t : Token} {width : Nat} (hs : s.mode = .tag)
    (hc : isTagSpace c = false)
    (hread : readToken square s.afterSeparator (c :: r) = some (.token t width)) :
    ∃ span s', step square s (c :: r) = .moved [⟨t, span⟩] s' ((c :: r).drop width) ∧
      s'.mode = modeAfter t := by
  have hdrop : (c :: r).dropWhile isTagSpace = c :: r := by
    rw [List.dropWhile_cons, hc]
    rfl
  have hstep := tagStep_eq_moved_iff.mpr
    ⟨t, width, hdrop.symm ▸ hread, hdrop.symm ▸ List.cons_ne_nil c r, rfl, rfl, rfl⟩
  rw [hdrop] at hstep
  exact ⟨_, _, (step_of_tag hs).trans hstep, rfl⟩

/-- One token that the tag goes on behind. -/
theorem takes_token {c : Char} {w : Text} {t : Token} (hc : isTagSpace c = false)
    (hread : ∀ after, readToken square after (c :: w ++ v) = some (.token t (c :: w).length))
    (ht : modeAfter t = .tag) : Takes square v (c :: w) [t] := by
  intro s hs
  obtain ⟨span, s', hstep, hs'⟩ := exists_step_token hs hc (hread s.afterSeparator)
  have hdrop : (c :: w ++ v).drop (c :: w).length = v := List.drop_left
  exact ⟨[⟨t, span⟩], s', scan_of_step (hstep.trans (congrArg _ hdrop)), hs'.trans ht, rfl⟩

/-- A word is taken in front of what ends it. -/
theorem takes_word {w : Text} (hw : w.IsWord) (hv : EndsWord v) : Takes square v w [.ident w] := by
  have hread (after : Bool) : readToken square after (w ++ v) = some (.token (.ident w) w.length) :=
    readToken_word hw hv
  obtain ⟨c, r, rfl⟩ := List.exists_cons_of_ne_nil hw.ne_nil
  exact takes_token (isTagSpace_of_isIdent (hw.ident c List.mem_cons_self)) hread rfl

/-- A space takes no token: the next one is read one character further. -/
theorem takes_space : Takes square v [' '] [] := by
  intro s hs
  refine ⟨[], { s with offset := s.offset + 1 }, ?_, hs, rfl⟩
  have hstep : step square s (' ' :: v) = step square { s with offset := s.offset + 1 } v := by
    have hstart : s.offset + Text.byteLength ((' ' :: v).takeWhile isTagSpace) =
        s.offset + 1 + Text.byteLength (v.takeWhile isTagSpace) := (Nat.add_assoc _ _ _).symm
    rw [step_of_tag hs, step_of_tag (s := { s with offset := s.offset + 1 }) hs, tagStep,
      tagStep, hstart]
    rfl
  show scan square s (' ' :: v) = scan square { s with offset := s.offset + 1 } v
  rw [scan.eq_def, scan.eq_def, hstep]

/-- A segment is read in front of those that follow it. -/
theorem takes_segment {segment : SegmentText} {more : List (Separator × SegmentText)}
    (hs : segment.Valid) (h : segment.Continues more) (v : Text) :
    Takes false (PathText.moreText more ++ '}' :: v) segment.written [.ident segment.written] := by
  have hread (after : Bool) :
      readToken false after (segment.written ++ (PathText.moreText more ++ '}' :: v)) =
        some (.token (.ident segment.written) segment.written.length) :=
    SegmentText.readToken_segment hs h
  obtain ⟨c, r, hcons, hc⟩ := hs.written_head
  rw [hcons] at hread ⊢
  exact takes_token hc hread rfl

theorem takes_more {segment : SegmentText} {more : List (Separator × SegmentText)}
    (h : segment.Continues more) (v : Text) :
    Takes false ('}' :: v) (PathText.moreText more) (PathText.moreTokens more) := by
  induction h with
  | nil => exact .nil
  | @cons _ next kind more hjoins hnext h ih =>
      have hseparator : Takes false (next.written ++ PathText.moreText more ++ '}' :: v)
          kind.text [.separator kind] := by
        have hread (after : Bool) :
            readToken false after
              (kind.text ++ (next.written ++ (PathText.moreText more ++ '}' :: v))) =
              some (.token (.separator kind) kind.text.length) :=
          SegmentText.readToken_separator hjoins hnext _
        rw [List.append_assoc]
        cases kind with
        | dot | slash | member => exact takes_token rfl hread rfl
      show Takes false _ (kind.text ++ next.written ++ PathText.moreText more) _
      rw [List.append_assoc]
      exact hseparator.append ((takes_segment hnext h v).append ih)

theorem takes_path (p : PathText) (v : Text) : Takes false ('}' :: v) p.text p.tokens := by
  have hfront : Takes false (p.first.written ++ PathText.moreText p.more ++ '}' :: v)
      (if p.data then ['@'] else []) (if p.data then [.data] else []) := by
    cases p.data with
    | true => exact takes_token rfl (fun _ => rfl) rfl
    | false => exact .nil
  exact hfront.append ((takes_segment p.valid p.continues v).append (takes_more p.continues v))

/-- A `}}` at the end of the text ends the tag. -/
theorem scan_closer (hs : s.mode = .tag) :
    ∃ span, scan square s ['}', '}'] = ⟨[⟨.closer ['}', '}'], span⟩], none⟩ := by
  have hread : readToken square s.afterSeparator ['}', '}'] =
      some (.token (.closer ['}', '}']) 2) := rfl
  obtain ⟨span, s', hstep, hs'⟩ := exists_step_token hs rfl hread
  refine ⟨span, ?_⟩
  rw [scan_of_step hstep]
  exact congrArg (Lexing.prepend _) (scan_nil (by rw [hs']; nofun))

/-- A template of one tag is cut into the tokens that are taken off what stands in front of its
`}}`. -/
theorem tokenize_tag (h : Takes square ['}', '}'] cs ts)
    (hstart : step square .initial (cs ++ ['}', '}']) =
      .moved [] { State.initial with mode := .tag } (cs ++ ['}', '}'])) :
    ∃ ls, tokenize square (cs ++ ['}', '}']) = ⟨ls, none⟩ ∧
      ls.map Lexeme.token = ts ++ [.closer ['}', '}']] := by
  obtain ⟨ls, s', hscan, hs', rfl⟩ := h (s := { State.initial with mode := .tag }) rfl
  obtain ⟨span, hcloser⟩ : ∃ span, scan square s' ['}', '}'] = _ := scan_closer hs'
  rw [hcloser] at hscan
  refine ⟨ls ++ [⟨.closer ['}', '}'], span⟩], ?_, List.map_append⟩
  rw [tokenize, scan_of_step hstart, hscan]
  rfl

/-- A template that calls `f` with one parameter is cut into the tokens of the parameter, with those
of `f` and of the delimiters around them. -/
theorem tokenize_call (h : Takes square ['}', '}'] cs ts) :
    ∃ ls, tokenize square (['{', '{', 'f', ' '] ++ (cs ++ ['}', '}'])) = ⟨ls, none⟩ ∧
      ls.map Lexeme.token =
        .opener .plain ['{', '{'] :: .ident ['f'] :: (ts ++ [.closer ['}', '}']]) := by
  have hopener : Takes square ('f' :: ' ' :: (cs ++ ['}', '}'])) ['{', '{']
      [.opener .plain ['{', '{']] := takes_token rfl (fun _ => rfl) rfl
  have hname : Takes square (' ' :: (cs ++ ['}', '}'])) ['f'] [.ident ['f']] :=
    takes_token rfl (fun _ => rfl) rfl
  exact tokenize_tag (hopener.append (hname.append (takes_space.append h))) rfl

end Scanner

/-- **The tag of a path is cut into the tokens of the path**, with those of `f` and of the
delimiters around them. -/
theorem tokenize_template (p : PathText) : ∃ ls, tokenize false p.template = ⟨ls, none⟩ ∧
    ls.map Lexeme.token =
      .opener .plain ['{', '{'] :: .ident ['f'] :: (p.tokens ++ [.closer ['}', '}']]) :=
  Scanner.tokenize_call (Scanner.takes_path p ['}'])

end Stache
