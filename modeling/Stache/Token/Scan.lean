import Stache.Diagnostic
import Stache.Source.Lines
import Stache.Token.Shapes

/-!
# Cutting a template into tokens

The scanner is in one of three modes.  Between tags it takes text up to the
next `{{`.  Inside a tag it reads token after token.  After the `}}}}` of a raw
block it takes everything up to the closer of that block.

A backslash before `{{` keeps it from opening a tag: the backslash is dropped
and the text goes on.  Two backslashes before it stand for one, and the tag
opens.

`step` is one move of the scanner and `scan` all of them.  Each move shortens
the rest, or leaves the text for a tag that starts right there.  Scanning stops
at the first fault and keeps the tokens before it.

What a move takes and where it leads is said once for each mode (`TextMove`,
`tagStep_eq_moved_iff`, `rawStep_eq_moved_iff`).
-/

namespace Stache

/-- What stops the scanner. -/
inductive FaultKind where
  /-- No token starts here. -/
  | unexpectedCharacter
  | unterminatedComment
  | unterminatedString
  | unterminatedRawBlock
deriving DecidableEq, Repr, Inhabited

/-- A fault and its place. -/
structure Fault where
  kind : FaultKind
  /-- The bytes it covers. -/
  span : Span
deriving DecidableEq, Repr, Inhabited

namespace FaultKind

/-- The code of a fault. -/
def code : FaultKind → Code
  | .unexpectedCharacter => .unexpectedCharacter
  | .unterminatedComment => .unterminatedComment
  | .unterminatedString => .unterminatedString
  | .unterminatedRawBlock => .unterminatedRawBlock

/-- What to do about a fault. -/
def help? : FaultKind → Option String
  | .unexpectedCharacter => none
  | .unterminatedComment =>
      some "close the comment with `\x7d\x7d` (or `--\x7d\x7d` for `\x7b\x7b!--` comments)"
  | .unterminatedString => some "add the closing quote"
  | .unterminatedRawBlock =>
      some "close the raw block with `\x7b\x7b\x7b\x7b/name\x7d\x7d\x7d\x7d`"

end FaultKind

/-- The report of a fault in a source text. -/
def Fault.diagnostic (f : Fault) (text : Text) (source : Option String) : Diagnostic :=
  .error f.kind.code f.kind.code.description (Source.location text source f.span)
    f.kind.code.description f.kind.help?

/-- The tokens of a text, up to the first fault. -/
structure Lexing where
  /-- The tokens, in order. -/
  lexemes : List Lexeme
  /-- What stopped the scanner, if anything did. -/
  fault : Option Fault
deriving DecidableEq, Repr

namespace Lexing

/-- The tokens of an earlier part put in front. -/
def prepend (before : List Lexeme) (l : Lexing) : Lexing := ⟨before ++ l.lexemes, l.fault⟩

/-- The tokens up to the last one that finishes a tag. -/
def finished (l : Lexing) : List Lexeme :=
  (l.lexemes.reverse.dropWhile fun x => !x.token.endsTag).reverse

end Lexing

namespace Scanner

/-- What the scanner is reading. -/
inductive Mode where
  | text
  | tag
  | raw
deriving DecidableEq, Repr

/-- Where the scanner stands. -/
structure State where
  /-- What it is reading. -/
  mode : Mode
  /-- The offset of the rest of the text. -/
  offset : Nat
  /-- The last token is a separator. -/
  afterSeparator : Bool
  /-- The offset of the last opener of a raw block. -/
  rawStart : Nat
deriving DecidableEq, Repr

/-- The state at the start of a text. -/
def State.initial : State := ⟨.text, 0, false, 0⟩

/-- One move of the scanner. -/
inductive Step where
  /-- The text is read. -/
  | finished
  | failed (fault : Fault)
  /-- Some tokens, the new state and the rest of the text. -/
  | moved (lexemes : List Lexeme) (next : State) (rest : Text)

/-! ## Text -/

/-- A tag may start here. -/
def startsTag (t : Text) : Bool := ['{', '{'].isPrefixOf t

/-- A tag may start here, or the backslashes in front of one. -/
def startsTagOrEscape (t : Text) : Bool :=
  ['{', '{'].isPrefixOf t || ['\\', '{', '{'].isPrefixOf t || ['\\', '\\', '{', '{'].isPrefixOf t

/-- The token of a piece of text, if it is not empty. -/
def contentLexeme (t : Text) (start stop : Nat) : List Lexeme :=
  if t.isEmpty then [] else [⟨.content t, ⟨start, stop⟩⟩]

/-- A move between tags. -/
def textStep (s : State) (cs : Text) : Step :=
  let (before, rest) := cs.splitBefore startsTag
  let stop := s.offset + before.byteLength
  if rest.isEmpty then
    if cs.isEmpty then .finished
    else .moved (contentLexeme before s.offset stop) { s with offset := stop } []
  else if ['\\', '\\'].isSuffixOf before then
    .moved (contentLexeme before.dropLast s.offset stop) { s with mode := .tag, offset := stop }
      rest
  else if ['\\'].isSuffixOf before then
    let (inner, after) := Text.splitBefore startsTagOrEscape (rest.drop 2)
    let escaped := rest.take 2 ++ inner
    let stop' := stop + Text.byteLength escaped
    .moved (contentLexeme before.dropLast s.offset stop ++ contentLexeme escaped stop stop')
      { s with offset := stop' } after
  else
    .moved (contentLexeme before s.offset stop) { s with mode := .tag, offset := stop } rest

/-! ## Tags -/

/-- The mode after a token of a tag. -/
def modeAfter : Token → Mode
  | .closer _ | .unescapedCloser _ | .elseTag _ | .comment _ => .text
  | .rawCloser => .raw
  | _ => .tag

/-- A move inside a tag. -/
def tagStep (square : Bool) (s : State) (cs : Text) : Step :=
  let space := cs.takeWhile isTagSpace
  let start := s.offset + Text.byteLength space
  match cs.dropWhile isTagSpace with
  | [] => .finished
  | c :: r =>
      let stop := start + Text.byteLength (c :: r)
      match Reading.readToken square s.afterSeparator (c :: r) with
      | none => .failed ⟨.unexpectedCharacter, start, start + c.utf8Size⟩
      | some .unterminatedComment => .failed ⟨.unterminatedComment, start, stop⟩
      | some .unterminatedString => .failed ⟨.unterminatedString, start, stop⟩
      | some (.token token width) =>
          let stop := start + Text.byteLength ((c :: r).take width)
          .moved [⟨token, start, stop⟩]
            { mode := modeAfter token
              offset := stop
              afterSeparator := token.isSeparator
              rawStart := if token = .rawOpener then start else s.rawStart }
            ((c :: r).drop width)

/-! ## Raw blocks -/

/-- The name in the closer of a raw block at the start of a text. -/
def rawCloseName? (cs : Text) : Option Text :=
  if ['{', '{', '{', '{', '/'].isPrefixOf cs then
    let name := (cs.drop 5).takeWhile Reading.isIdent
    if !name.isEmpty && ['}', '}', '}', '}'].isPrefixOf (cs.drop (5 + name.length)) then some name
    else none
  else none

/-- The number of characters of a closer with a given name. -/
def rawCloseWidth (name : Text) : Nat := name.length + 9

/-- The number of characters before the closer of a raw block, and the name in
it.  An opener inside the body must be closed before: `depth` of them are. -/
def rawBody? (depth : Nat) (cs : Text) : Option (Nat × Text) :=
  match cs with
  | [] => none
  | c :: r =>
      if ['{', '{', '{', '{'].isPrefixOf (c :: r) then
        match rawCloseName? (c :: r), depth with
        | some name, 0 => some (0, name)
        | some name, depth + 1 =>
            (rawBody? depth ((c :: r).drop (rawCloseWidth name))).map fun found =>
              (found.1 + rawCloseWidth name, found.2)
        | none, depth =>
            let depth := if ((c :: r).drop 4).head? = some '/' then depth else depth + 1
            (rawBody? depth ((c :: r).drop 4)).map fun found => (found.1 + 4, found.2)
      else (rawBody? depth r).map fun found => (found.1 + 1, found.2)
termination_by cs.length
decreasing_by
  all_goals simp only [rawCloseWidth, List.length_drop, List.length_cons]
  all_goals omega

theorem rawBody?_nil (depth : Nat) : rawBody? depth [] = none := by rw [rawBody?]

/-- The closer of a raw block starts with four braces. -/
theorem braces_of_rawCloseName? {cs name : Text} (h : rawCloseName? cs = some name) :
    ['{', '{', '{', '{'] <+: cs := by
  rw [rawCloseName?] at h
  split at h
  · next hstart =>
      exact (List.prefix_append _ ['/']).trans (List.isPrefixOf_iff_prefix.mp hstart)
  · cases h

/-- A closer closes the last block that was opened, or the one that is searched. -/
theorem rawBody?_of_closer {cs name : Text} (h : rawCloseName? cs = some name) (depth : Nat) :
    rawBody? depth cs =
      match depth with
      | 0 => some (0, name)
      | depth + 1 => (rawBody? depth (cs.drop (rawCloseWidth name))).map fun found =>
          (found.1 + rawCloseWidth name, found.2) := by
  have hstart := List.isPrefixOf_iff_prefix.mpr (braces_of_rawCloseName? h)
  cases cs with
  | nil => cases hstart
  | cons c r =>
      rw [rawBody?.eq_def]
      dsimp only
      rw [if_pos hstart, h]
      cases depth <;> rfl

/-- Four braces that are no closer open a block, unless a slash stands behind them. -/
theorem rawBody?_of_braces {cs : Text} (hstart : ['{', '{', '{', '{'] <+: cs)
    (hnone : rawCloseName? cs = none) (depth : Nat) :
    rawBody? depth cs =
      (rawBody? (if (cs.drop 4).head? = some '/' then depth else depth + 1) (cs.drop 4)).map
        fun found => (found.1 + 4, found.2) := by
  cases cs with
  | nil => cases List.prefix_nil.mp hstart
  | cons c r =>
      rw [rawBody?.eq_def]
      dsimp only
      rw [if_pos (List.isPrefixOf_iff_prefix.mpr hstart), hnone]

/-- A character that starts no tag of four braces is text of the raw block. -/
theorem rawBody?_of_text {c : Char} {r : Text} (h : ¬['{', '{', '{', '{'] <+: c :: r)
    (depth : Nat) :
    rawBody? depth (c :: r) = (rawBody? depth r).map fun found => (found.1 + 1, found.2) := by
  rw [rawBody?.eq_def]
  dsimp only
  rw [if_neg (mt List.isPrefixOf_iff_prefix.mp h)]

/-- A move inside a raw block. -/
def rawStep (s : State) (cs : Text) : Step :=
  match rawBody? 0 cs with
  | none => .failed ⟨.unterminatedRawBlock, s.rawStart, s.offset + cs.byteLength⟩
  | some (width, name) =>
      let body := cs.take width
      let start := s.offset + Text.byteLength body
      let closer := (cs.drop width).take (rawCloseWidth name)
      let stop := start + Text.byteLength closer
      .moved (contentLexeme body s.offset start ++ [⟨.rawEnd name, start, stop⟩])
        { s with mode := .text, offset := stop, afterSeparator := false }
        (cs.drop (width + rawCloseWidth name))

/-! ## The scanner -/

/-- One move. -/
def step (square : Bool) (s : State) (cs : Text) : Step :=
  match s.mode with
  | .text => textStep s cs
  | .tag => tagStep square s cs
  | .raw => rawStep s cs

/-! ## What a move does -/

variable {square : Bool} {s s' : State} {cs rest : Text} {ls : List Lexeme}

/-- Between tags the scanner reads text. -/
theorem step_of_text (hmode : s.mode = .text) : step square s cs = textStep s cs := by
  rw [step, hmode]

/-- Inside a tag the scanner reads a token. -/
theorem step_of_tag (hmode : s.mode = .tag) : step square s cs = tagStep square s cs := by
  rw [step, hmode]

/-- Behind a `}}}}` the scanner reads a raw block. -/
theorem step_of_raw (hmode : s.mode = .raw) : step square s cs = rawStep s cs := by
  rw [step, hmode]

/-- A move between tags: its tokens, the new state and the rest of the text. -/
inductive TextMove (s : State) (cs : Text) : List Lexeme → State → Text → Prop
  /-- No tag starts in the text. -/
  | last (hne : cs ≠ []) (hcs : cs.splitBefore startsTag = (cs, [])) :
      TextMove s cs (contentLexeme cs s.offset (s.offset + cs.byteLength))
        { s with offset := s.offset + cs.byteLength } []
  /-- A tag starts behind the text. -/
  | tag {front rest : Text} (hstart : ['{', '{'] <+: rest)
      (hcs : cs.splitBefore startsTag = (front, rest)) (hfront : ¬['\\'] <:+ front) :
      TextMove s cs (contentLexeme front s.offset (s.offset + front.byteLength))
        { s with mode := .tag, offset := s.offset + front.byteLength } rest
  /-- Two backslashes in front of a tag stand for one. -/
  | doubled {front rest : Text} {stop : Nat} (hstart : ['{', '{'] <+: rest)
      (hcs : cs.splitBefore startsTag = (front ++ ['\\', '\\'], rest))
      (hstop : stop = s.offset + Text.byteLength (front ++ ['\\', '\\'])) :
      TextMove s cs (contentLexeme (front ++ ['\\']) s.offset stop)
        { s with mode := .tag, offset := stop } rest
  /-- A backslash keeps a tag from starting, and the text goes on. -/
  | escaped {front inner rest : Text} {stop stop' : Nat}
      (hcs : cs.splitBefore startsTag = (front ++ ['\\'], ['{', '{'] ++ (inner ++ rest)))
      (hinner : Text.splitBefore startsTagOrEscape (inner ++ rest) = (inner, rest))
      (hfront : ¬['\\'] <:+ front)
      (hstop : stop = s.offset + Text.byteLength (front ++ ['\\']))
      (hstop' : stop' = stop + Text.byteLength (['{', '{'] ++ inner)) :
      TextMove s cs
        (contentLexeme front s.offset stop ++ contentLexeme (['{', '{'] ++ inner) stop stop')
        { s with offset := stop' } rest

/-- A text is split without loss. -/
theorem eq_of_splitBefore {stop : Text → Bool} {front : Text}
    (h : cs.splitBefore stop = (front, rest)) : cs = front ++ rest := by
  have happend := Text.splitBefore_append stop cs
  rw [h] at happend
  exact happend.symm

/-- The text in front of a tag ends where two braces are. -/
theorem startsTag_of_splitBefore {front : Text} (h : cs.splitBefore startsTag = (front, rest))
    (hne : rest ≠ []) : ['{', '{'] <+: rest := by
  have hstop : (cs.splitBefore startsTag).2 ≠ [] → startsTag (cs.splitBefore startsTag).2 = true :=
    Text.stop_splitBefore
  rw [h] at hstop
  exact List.isPrefixOf_iff_prefix.mp (hstop hne)

/-- Between tags a move takes the text up to a `{{`, and opens the tag unless a backslash stands
in front of it. -/
theorem textStep_of_splitBefore {front rest : Text}
    (h : Text.splitBefore startsTag cs = (front, rest)) (hrest : rest ≠ []) : textStep s cs =
      let stop := s.offset + front.byteLength
      if ['\\', '\\'].isSuffixOf front then
        .moved (contentLexeme front.dropLast s.offset stop) { s with mode := .tag, offset := stop }
          rest
      else if ['\\'].isSuffixOf front then
        let (inner, after) := Text.splitBefore startsTagOrEscape (rest.drop 2)
        let stop' := stop + Text.byteLength (rest.take 2 ++ inner)
        .moved (contentLexeme front.dropLast s.offset stop ++
            contentLexeme (rest.take 2 ++ inner) stop stop') { s with offset := stop' } after
      else
        .moved (contentLexeme front s.offset stop) { s with mode := .tag, offset := stop } rest := by
  rw [textStep, h]
  dsimp only
  rw [if_neg fun hempty => hrest (List.isEmpty_iff.mp hempty)]

/-- **What a move between tags reads.** -/
theorem textMove_of_moved (h : textStep s cs = .moved ls s' rest) : TextMove s cs ls s' rest := by
  rw [textStep] at h
  generalize hcs : cs.splitBefore startsTag = parts at h
  obtain ⟨front, after⟩ := parts
  dsimp only at h
  split at h
  · next hempty =>
      obtain rfl := List.isEmpty_iff.mp hempty
      obtain rfl : cs = front := (eq_of_splitBefore hcs).trans (List.append_nil front)
      split at h
      · cases h
      · next hne =>
          cases h
          exact .last (fun hnil => hne (List.isEmpty_iff.mpr hnil)) hcs
  · next hne =>
      have hstart := startsTag_of_splitBefore hcs fun hnil => hne (List.isEmpty_iff.mpr hnil)
      split at h
      · next hdouble =>
          obtain ⟨front, rfl⟩ := List.isSuffixOf_iff_suffix.mp hdouble
          cases h
          have hlast : (front ++ ['\\', '\\']).dropLast = front ++ ['\\'] :=
            List.dropLast_append_cons
          rw [hlast]
          exact .doubled hstart hcs rfl
      · next hdouble =>
          split at h
          · next hsingle =>
              obtain ⟨front, rfl⟩ := List.isSuffixOf_iff_suffix.mp hsingle
              obtain ⟨tail, rfl⟩ := hstart
              rw [List.dropLast_concat, show List.drop 2 (['{', '{'] ++ tail) = tail from rfl,
                show List.take 2 (['{', '{'] ++ tail) = ['{', '{'] from rfl] at h
              generalize hinner : Text.splitBefore startsTagOrEscape tail = parts at h
              obtain ⟨inner, after⟩ := parts
              obtain rfl := eq_of_splitBefore hinner
              cases h
              refine .escaped hcs hinner (fun hfront => hdouble ?_) rfl rfl
              obtain ⟨w, rfl⟩ := hfront
              exact List.isSuffixOf_iff_suffix.mpr ⟨w, (List.append_assoc w ['\\'] ['\\']).symm⟩
          · next hsingle =>
              cases h
              exact .tag hstart hcs fun hfront => hsingle (List.isSuffixOf_iff_suffix.mpr hfront)

/-- The scanner makes each of these moves. -/
theorem TextMove.moved (h : TextMove s cs ls s' rest) : textStep s cs = .moved ls s' rest := by
  have hnil {r : Text} (hstart : ['{', '{'] <+: r) : r ≠ [] := by
    obtain ⟨tail, rfl⟩ := hstart
    exact List.cons_ne_nil _ _
  have hnone {w v : Text} (hw : ¬['\\'] <:+ w) (hv : ['\\'] <:+ v) : ¬v.isSuffixOf w = true :=
    fun h => hw (hv.trans (List.isSuffixOf_iff_suffix.mp h))
  cases h with
  | last hne hcs => simp [textStep, hcs, hne]
  | tag hstart hcs hfront =>
      rw [textStep_of_splitBefore hcs (hnil hstart)]
      dsimp only
      rw [if_neg (hnone hfront (v := ['\\', '\\']) ⟨['\\'], rfl⟩),
        if_neg (hnone hfront List.suffix_rfl)]
  | @doubled front _ _ hstart hcs hstop =>
      have hlast : (front ++ ['\\', '\\']).dropLast = front ++ ['\\'] :=
        List.dropLast_append_cons
      rw [textStep_of_splitBefore hcs (hnil hstart)]
      dsimp only
      rw [if_pos (List.isSuffixOf_iff_suffix.mpr (List.suffix_append front _)), hlast, ← hstop]
  | @escaped front inner rest _ _ hcs hinner hfront hstop hstop' =>
      have hdouble : ¬['\\', '\\'].isSuffixOf (front ++ ['\\']) = true := fun h => by
        obtain ⟨w, hw⟩ := List.isSuffixOf_iff_suffix.mp h
        exact hfront ⟨w, List.append_cancel_right ((List.append_assoc w ['\\'] ['\\']).trans hw)⟩
      rw [textStep_of_splitBefore hcs (hnil (List.prefix_append _ _)),
        show List.drop 2 (['{', '{'] ++ (inner ++ rest)) = inner ++ rest from rfl,
        show List.take 2 (['{', '{'] ++ (inner ++ rest)) = ['{', '{'] from rfl, hinner]
      dsimp only
      rw [if_neg hdouble, if_pos (List.isSuffixOf_iff_suffix.mpr (List.suffix_append front _)),
        List.dropLast_concat, ← hstop, ← hstop']

/-- The moves between tags are these and no others. -/
theorem textStep_eq_moved_iff : textStep s cs = .moved ls s' rest ↔ TextMove s cs ls s' rest :=
  ⟨textMove_of_moved, TextMove.moved⟩

/-- Between tags there is a move, unless the text is read. -/
theorem textStep_cases (s : State) (cs : Text) : cs = [] ∧ textStep s cs = .finished ∨
    ∃ ls s' rest, textStep s cs = .moved ls s' rest := by
  rw [textStep]
  dsimp only
  split
  · split
    · next hempty => exact .inl ⟨List.isEmpty_iff.mp hempty, rfl⟩
    · exact .inr ⟨_, _, _, rfl⟩
  · split
    · exact .inr ⟨_, _, _, rfl⟩
    · split <;> exact .inr ⟨_, _, _, rfl⟩

/-- Between tags the scanner is done at the end only. -/
theorem eq_nil_of_textStep (h : textStep s cs = .finished) : cs = [] := by
  rcases textStep_cases s cs with ⟨hcs, -⟩ | ⟨_, _, _, hmoved⟩
  · exact hcs
  · cases h.symm.trans hmoved

/-- Between tags nothing fails. -/
theorem textStep_ne_failed {fault : Fault} : textStep s cs ≠ .failed fault := by
  intro h
  rcases textStep_cases s cs with ⟨-, hfinished⟩ | ⟨_, _, _, hmoved⟩
  · cases h.symm.trans hfinished
  · cases h.symm.trans hmoved

/-- A move inside a tag skips tag space and reads one token. -/
theorem tagStep_eq_moved_iff : tagStep square s cs = .moved ls s' rest ↔
    ∃ token width,
      Reading.readToken square s.afterSeparator (cs.dropWhile isTagSpace) =
          some (.token token width) ∧
        cs.dropWhile isTagSpace ≠ [] ∧
        let start := s.offset + Text.byteLength (cs.takeWhile isTagSpace)
        let stop := start + Text.byteLength ((cs.dropWhile isTagSpace).take width)
        ls = [⟨token, start, stop⟩] ∧
          s' = ⟨modeAfter token, stop, token.isSeparator,
            if token = .rawOpener then start else s.rawStart⟩ ∧
          rest = (cs.dropWhile isTagSpace).drop width := by
  rw [tagStep]
  dsimp only
  generalize cs.dropWhile isTagSpace = body
  cases body with
  | nil => simp
  | cons c r =>
      dsimp only
      cases hread : Reading.readToken square s.afterSeparator (c :: r) with
      | none => simp
      | some reading =>
          cases reading with
          | token token width =>
              simp only [Step.moved.injEq, Option.some.injEq, Reading.token.injEq]
              constructor
              · rintro ⟨rfl, rfl, rfl⟩
                exact ⟨token, width, ⟨rfl, rfl⟩, List.cons_ne_nil c r, rfl, rfl, rfl⟩
              · rintro ⟨_, _, ⟨rfl, rfl⟩, -, rfl, rfl, rfl⟩
                exact ⟨rfl, rfl, rfl⟩
          | unterminatedComment | unterminatedString => simp

/-- A move in a raw block takes its body and its closer. -/
theorem rawStep_eq_moved_iff : rawStep s cs = .moved ls s' rest ↔
    ∃ width name, rawBody? 0 cs = some (width, name) ∧
      let start := s.offset + Text.byteLength (cs.take width)
      let stop := start + Text.byteLength ((cs.drop width).take (rawCloseWidth name))
      ls = contentLexeme (cs.take width) s.offset start ++ [⟨.rawEnd name, start, stop⟩] ∧
        s' = ⟨.text, stop, false, s.rawStart⟩ ∧ rest = cs.drop (width + rawCloseWidth name) := by
  rw [rawStep]
  cases hbody : rawBody? 0 cs with
  | none => simp
  | some found =>
      simp only [Step.moved.injEq, Option.some.injEq]
      constructor
      · rintro ⟨rfl, rfl, rfl⟩
        exact ⟨found.1, found.2, rfl, rfl, rfl, rfl⟩
      · rintro ⟨_, _, rfl, rfl, rfl, rfl⟩
        exact ⟨rfl, rfl, rfl⟩

/-! ## All moves -/

/-- What every move lessens: the rest of the text, then the mode. -/
def measure (s : State) (cs : Text) : Nat := 2 * cs.length + if s.mode = .text then 1 else 0

/-- A move between tags brings the scanner on. -/
theorem textStep_measure (hs : s.mode = .text) (h : textStep s cs = .moved ls s' rest) :
    measure s' rest < measure s cs := by
  rw [measure, measure, if_pos hs]
  cases textStep_eq_moved_iff.mp h with
  | last hne =>
      have hlen := List.length_pos_iff.mpr hne
      rw [if_pos hs, List.length_nil]
      omega
  | tag _ hcs | doubled _ hcs =>
      have hlen := congrArg List.length (eq_of_splitBefore hcs)
      rw [List.length_append] at hlen
      rw [if_neg nofun]
      omega
  | escaped hcs =>
      have hlen := congrArg List.length (eq_of_splitBefore hcs)
      simp only [List.length_append, List.length_cons] at hlen
      rw [if_pos hs]
      omega

/-- A move inside a tag brings the scanner on. -/
theorem tagStep_measure (hs : s.mode = .tag) (h : tagStep square s cs = .moved ls s' rest) :
    measure s' rest < measure s cs := by
  obtain ⟨token, width, hread, hne, -, -, rfl⟩ := tagStep_eq_moved_iff.mp h
  have hwidth : 0 < width := Reading.allProper_readToken _ _ _ _ hread
  have hpos := List.length_pos_iff.mpr hne
  have hlen := (List.dropWhile_sublist isTagSpace (l := cs)).length_le
  have htag : s.mode ≠ .text := by
    rw [hs]
    nofun
  rw [measure, measure, if_neg htag, List.length_drop]
  split <;> omega

/-- A move over a raw block brings the scanner on. -/
theorem rawStep_measure (h : rawStep s cs = .moved ls s' rest) :
    measure s' rest < measure s cs := by
  obtain ⟨width, name, hbody, -, -, rfl⟩ := rawStep_eq_moved_iff.mp h
  have hne : cs ≠ [] := by
    rintro rfl
    rw [rawBody?_nil] at hbody
    cases hbody
  have hpos := List.length_pos_iff.mpr hne
  rw [measure, measure, List.length_drop, rawCloseWidth]
  split <;> split <;> omega

/-- Every move lessens the measure. -/
theorem step_measure (h : step square s cs = .moved ls s' rest) :
    measure s' rest < measure s cs := by
  unfold step at h
  split at h
  · next hs => exact textStep_measure hs h
  · next hs => exact tagStep_measure hs h
  · exact rawStep_measure h

/-- All moves from a state. -/
def scan (square : Bool) (s : State) (cs : Text) : Lexing :=
  match _h : step square s cs with
  | .finished => ⟨[], none⟩
  | .failed fault => ⟨[], some fault⟩
  | .moved lexemes s' rest => (scan square s' rest).prepend lexemes
termination_by measure s cs
decreasing_by exact step_measure _h

end Scanner

/-- The tokens of a template.  `square` says that brackets are lists. -/
def tokenize (square : Bool) (text : Text) : Lexing := Scanner.scan square .initial text

end Stache
