import Stache.Proofs.Grammar.Earlier
import Stache.Proofs.Token.Partial

/-!
# Templates that are not finished

An editor that reads on as long as a text is incomplete sees the first parts of a template.
`incomplete_of_parseRaw` says which of them are accepted or refused as incomplete.

The tokens of such a part begin those of the template.  If the cut lies in no tag, this is so
because the scanner comes to the last tag that ends in the part the same way (`Closes.swap`),
and behind it only text, a comment or a raw block is cut (`begins_of_cutsTag`).  Tokens that
begin those of a template are refused only because they end (`code_of_begins`), and a fault
behind them counts as incomplete, unless a character is out of place.
-/

namespace Stache

open Grammar

variable {square : Bool} {p q v : Text} {m m' : Stage} {ls us : List Lexeme} {l l' : Lexing}
  {n : Nat}

/-- The tokens of a text begin those of a longer one, and no character of it is out of place. -/
structure Lexing.Begins (m : Stage) (l l' : Lexing) : Prop where
  lexemes : Grammar.Begins false m l.lexemes l'.lexemes
  fault : ∀ f ∈ l.fault, f.kind ≠ .unexpectedCharacter

/-- The token is a comment. -/
def Token.isComment : Token → Bool
  | .comment _ => true
  | _ => false

/-- The offset lies in a tag that is no comment: behind the start of one of its tokens, and in
front of its end. -/
def cutsTag (n : Nat) : List Lexeme → Bool
  | [] => false
  | x :: xs =>
      (x.token.ofTag && !x.token.isComment && x.span.start < n &&
        (x :: xs).all fun y => !y.token.endsTag || n < y.span.stop) || cutsTag n xs

/-! ## Common tokens -/

/-- Where no tag ends in front of the offset, and none is cut there: only text, comments and the
ends of raw blocks stand in front of it, and they end behind it. -/
structure Clear (n : Nat) (x : Lexeme) : Prop where
  comment (hstart : x.span.start < n) (htag : x.token.ofTag = true) : x.token.isComment = true
  stop (hend : x.token.endsTag = true) : n < x.span.stop

theorem clear_of_cutsTag (h : cutsTag n ls = false)
    (hstop : ∀ x ∈ ls, x.token.endsTag = true → n < x.span.stop) : ∀ x ∈ ls, Clear n x := by
  induction ls with
  | nil => nofun
  | cons x xs ih =>
      rw [cutsTag, Bool.or_eq_false_iff] at h
      have hall : (x :: xs).all (fun y => !y.token.endsTag || n < y.span.stop) = true := by
        refine List.all_eq_true.mpr fun y hy => ?_
        cases hend : y.token.endsTag with
        | false => rfl
        | true => exact decide_eq_true (hstop y hy hend)
      refine List.forall_mem_cons.mpr ⟨⟨fun hstart htag => ?_, hstop x List.mem_cons_self⟩,
        ih h.2 fun y hy => hstop y (List.mem_cons_of_mem x hy)⟩
      cases hcomment : x.token.isComment with
      | true => rfl
      | false =>
          rw [htag, hcomment, decide_eq_true hstart, hall] at h
          cases h.1

theorem cutsTag_append (h : cutsTag n (ls ++ us) = false) : cutsTag n us = false := by
  induction ls with
  | nil => exact h
  | cons x xs ih =>
      rw [List.cons_append, cutsTag, Bool.or_eq_false_iff] at h
      exact ih h.2

/-- Between tags text goes on as it is. -/
theorem Stage.next_content (hm : m.site = .text) (t : Text) : m.next (.content t) = m := by
  rw [Stage.next, hm]
  exact if_neg Bool.false_ne_true

/-- Text in front of both. -/
theorem Lexing.Begins.prepend_content (hm : m.site = .text)
    (hls : ∀ x ∈ ls, ∃ t, x.token = .content t) (h : l.Begins m l') :
    (l.prepend ls).Begins m (l'.prepend ls) := by
  refine ⟨?_, h.fault⟩
  induction ls with
  | nil => exact h.lexemes
  | cons x xs ih =>
      obtain ⟨t, ht⟩ := hls x List.mem_cons_self
      refine .token (fun _ _ => ?_) ?_
      · show startsPair (x.token :: _) = false
        rw [ht]
        rfl
      · rw [ht, Stage.next_content hm]
        exact ih fun y hy => hls y (List.mem_cons_of_mem x hy)

/-- Text up to the end is the start of anything. -/
theorem Grammar.Begins.content {t : Text} {start stop : Nat} {ls' : List Lexeme}
    (hm : m.site = .text) :
    Grammar.Begins false m (Scanner.contentLexeme t start stop) ls' := by
  unfold Scanner.contentLexeme
  split
  · exact .stop nofun
  · exact .piece rfl hm rfl

theorem Lexing.Begins.content {t : Text} {start stop : Nat} (hm : m.site = .text) :
    Lexing.Begins m ⟨Scanner.contentLexeme t start stop, none⟩ l' :=
  ⟨Grammar.Begins.content hm, nofun⟩

namespace Scanner

variable {s s' : State}

/-! ## A part without a tag that ends -/

theorem content_contentLexeme (t : Text) (start stop : Nat) :
    ∀ x ∈ contentLexeme t start stop, ∃ u, x.token = .content u :=
  forall_contentLexeme (fun t => ∃ u, t = .content u) (fun u _ => ⟨u, rfl⟩) t start stop

/-- What a part of a text takes lies in the part. -/
theorem byteLength_take_le {n : Nat} (h : n ≤ q.length) (v : Text) :
    Text.byteLength ((q ++ v).take n) ≤ q.byteLength := by
  rw [List.take_append_of_le_length h]
  have hlen := congrArg Text.byteLength (List.take_append_drop n q)
  rw [Text.byteLength_append] at hlen
  omega

/-- In front of a `{{` no tag space is skipped. -/
theorem step_of_braces (hmode : s.mode = .tag) {cs : Text} (hstart : ['{', '{'] <+: cs) :
    step square s cs =
      match Reading.readToken square s.afterSeparator cs with
      | none => .failed ⟨.unexpectedCharacter, s.offset, s.offset + '{'.utf8Size⟩
      | some .unterminatedComment =>
          .failed ⟨.unterminatedComment, s.offset, s.offset + cs.byteLength⟩
      | some .unterminatedString =>
          .failed ⟨.unterminatedString, s.offset, s.offset + cs.byteLength⟩
      | some (.token token width) =>
          let stop := s.offset + Text.byteLength (cs.take width)
          .moved [⟨token, s.offset, stop⟩]
            ⟨modeAfter token, stop, token.isSeparator,
              if token = .rawOpener then s.offset else s.rawStart⟩ (cs.drop width) := by
  obtain ⟨r, rfl⟩ := hstart
  exact (step_of_tag hmode).trans rfl

/-- A `{{` at the end of the part starts a comment that goes on behind it. -/
theorem begins_tag (hm : m.site = .text) (hmode : s.mode = .tag) (hstart : ['{', '{'] <+: q)
    (hfault : (scan square s (q ++ v)).fault = none)
    (hclear : ∀ x ∈ (scan square s (q ++ v)).lexemes, Clear (s.offset + q.byteLength) x) :
    (scan square s q).Begins m (scan square s (q ++ v)) := by
  have hlong : step square s (q ++ v) = _ :=
    step_of_braces hmode (hstart.trans (List.prefix_append q v))
  have hshort : step square s q = _ := step_of_braces hmode hstart
  cases hread : Reading.readToken square s.afterSeparator (q ++ v) with
  | none =>
      rw [hread] at hlong
      cases hfault.symm.trans (congrArg Lexing.fault (scan_of_failed hlong))
  | some reading =>
      rw [hread] at hlong
      cases reading with
      | unterminatedComment | unterminatedString =>
          cases hfault.symm.trans (congrArg Lexing.fault (scan_of_failed hlong))
      | token token width =>
          rw [scan_of_step hlong] at hclear
          have hx := hclear _ (List.mem_append_left _ (List.mem_singleton_self _))
          have hpos : 0 < q.byteLength := by
            obtain ⟨r, rfl⟩ := hstart
            rw [Text.byteLength_append]
            exact Nat.lt_of_lt_of_le (by decide) (Nat.le_add_right _ _)
          have hcomment := hx.comment (Nat.lt_add_of_pos_right hpos)
            (Reading.all_spelled_readToken _ _ _ _ hread).1
          obtain ⟨t, rfl⟩ : ∃ t, token = .comment t := by
            cases token <;> first | exact ⟨_, rfl⟩ | cases hcomment
          have hstop := hx.stop rfl
          have hlt : q.length < width := Nat.lt_of_not_le fun hle => by
            have := byteLength_take_le hle v
            dsimp only at hstop
            omega
          rcases Reading.readToken_part hstart hlt hread with hread' | hread'
          · rw [hread'] at hshort
            rw [scan_of_failed hshort]
            refine ⟨.stop nofun, fun f hf => ?_⟩
            cases hf
            nofun
          · rw [hread'] at hshort
            rw [scan_of_step hshort, List.drop_length, scan_nil (by nofun)]
            exact ⟨.piece rfl hm rfl, nofun⟩

/-- A raw block whose closer is cut off, or lies behind the part, has no end in it. -/
theorem begins_raw (hmode : s.mode = .raw)
    (hclear : ∀ x ∈ (scan square s (q ++ v)).lexemes, Clear (s.offset + q.byteLength) x) :
    (scan square s q).Begins m (scan square s (q ++ v)) := by
  have hstep (cs : Text) : step square s cs = rawStep s cs := by rw [step, hmode]
  cases hbody : rawBody? 0 q with
  | none =>
      have hfailed : step square s q =
          .failed ⟨.unterminatedRawBlock, s.rawStart, s.offset + q.byteLength⟩ := by
        rw [hstep, rawStep, hbody]
      rw [scan_of_failed hfailed]
      refine ⟨.stop fun h => absurd h Bool.false_ne_true, fun f hf => ?_⟩
      cases hf
      exact (by decide : FaultKind.unterminatedRawBlock ≠ .unexpectedCharacter)
  | some found =>
      obtain ⟨width, name⟩ := found
      have hmoved := (hstep (q ++ v)).trans
        (rawStep_eq_moved_iff.mpr ⟨width, name, rawBody?_part hbody v, rfl, rfl, rfl⟩)
      rw [scan_of_step hmoved] at hclear
      have hx := hclear _ (List.mem_append_left _
        (List.mem_append_right _ (List.mem_singleton_self _)))
      have hstop := hx.stop rfl
      have hlen := byteLength_take_le (rawBody?_le hbody) v
      rw [List.take_add, Text.byteLength_append] at hlen
      dsimp only at hstop
      omega

/-- Behind a move between tags a tag starts, or the text goes on. -/
theorem mode_textStep {rest : Text} (h : textStep s q = .moved ls s' rest) :
    (s'.mode = .tag ∧ ['{', '{'] <+: rest) ∨ s'.mode = s.mode := by
  cases textStep_eq_moved_iff.mp h with
  | last | escaped => exact .inr rfl
  | tag hstart | doubled hstart => exact .inl ⟨rfl, hstart⟩

/-- The text that the part ends with may go on behind it. -/
theorem begins_text (hm : m.site = .text) (hmode : s.mode = .text) (h : TextMove s q ls s' []) :
    (scan square s q).Begins m (scan square s (q ++ v)) := by
  have hmode' : s'.mode ≠ .raw := by
    rcases mode_textStep h.moved with ⟨-, hstart⟩ | hmode'
    · cases List.prefix_nil.mp hstart
    · rw [hmode', hmode]
      exact Mode.noConfusion
  rw [scan_of_step ((step_of_text hmode).trans h.moved), scan_nil hmode', Lexing.prepend,
    List.append_nil]
  cases h with
  | last => exact .content hm
  | tag hstart | doubled hstart => cases List.prefix_nil.mp hstart
  | @escaped front inner _ stop stop' hcs hinner hfront hstop hstop' =>
      generalize hmore : Text.splitBefore startsTagOrEscape (inner ++ v) = parts
      obtain ⟨inner', after⟩ := parts
      have hcs' := marks_startsTag.splitBefore_part hcs (List.cons_ne_nil _ _) v
      rw [List.append_nil, List.append_assoc, eq_of_splitBefore hmore] at hcs'
      rw [eq_of_splitBefore hmore] at hmore
      have hlong : step square s (q ++ v) = _ :=
        (step_of_text hmode).trans (TextMove.escaped hcs' hmore hfront hstop rfl).moved
      rw [scan_of_step hlong, ← Lexing.prepend_prepend]
      exact .prepend_content (l := ⟨contentLexeme (['{', '{'] ++ inner) stop stop', none⟩) hm
        (content_contentLexeme front s.offset stop) (.content hm)

/-- **A part in which no tag is cut begins the text.** -/
theorem begins_scan {m : Stage} (square : Bool) (s : State) (q v : Text) (hmode : s.mode ≠ .tag)
    (hm : s.mode = .text → m.site = .text) (hfault : (scan square s (q ++ v)).fault = none)
    (hclear : ∀ x ∈ (scan square s (q ++ v)).lexemes, Clear (s.offset + q.byteLength) x) :
    (scan square s q).Begins m (scan square s (q ++ v)) := by
  cases hstate : s.mode with
  | tag => exact absurd hstate hmode
  | raw => exact begins_raw hstate hclear
  | text =>
      have hm := hm hstate
      rcases textStep_cases s q with ⟨rfl, -⟩ | ⟨ls, s', rest, hmoved⟩
      · rw [scan_nil (by rw [hstate]; nofun)]
        exact ⟨.stop nofun, nofun⟩
      by_cases hrest : rest = []
      · subst hrest
        exact begins_text hm hstate (textMove_of_moved hmoved)
      have hshort : step square s q = _ := (step_of_text hstate).trans hmoved
      have hlong : step square s (q ++ v) = _ :=
        (step_of_text hstate).trans (textStep_part hmoved hrest v)
      have hless := step_measure hshort
      obtain ⟨w, hw, hoffset⟩ := exists_of_textStep hmoved
      rw [scan_of_step hlong] at hfault hclear
      have hclear' : ∀ x ∈ (scan square s' (rest ++ v)).lexemes,
          Clear (s'.offset + rest.byteLength) x := fun x hx => by
        rw [hoffset, Nat.add_assoc, ← Text.byteLength_append, ← hw]
        exact hclear x (List.mem_append_right _ hx)
      rw [scan_of_step hshort, scan_of_step hlong]
      refine .prepend_content hm
        (forall_textStep (fun t => ∃ u, t = .content u) (fun u _ => ⟨u, rfl⟩) hmoved) ?_
      rcases mode_textStep hmoved with ⟨htag, hstart⟩ | htext
      · exact begins_tag hm htag hstart hfault hclear'
      · exact begins_scan square s' rest v (htext ▸ hmode) (fun _ => hm) hfault hclear'
termination_by measure s q
decreasing_by exact hless

end Scanner

/-! ## A part of a text -/

theorem next_of_endsTag {t : Token} (h : t.endsTag = true) (hraw : t ≠ .rawCloser) :
    (m.next t).site = .text := by
  cases t <;> first | rfl | exact absurd rfl hraw | cases h

/-- The tokens of a part that cuts no tag begin those of the text. -/
theorem begins_of_cutsTag (hfault : (tokenize square (p ++ v)).fault = none)
    (hcut : cutsTag p.byteLength (tokenize square (p ++ v)).lexemes = false) :
    (tokenize square p).Begins .initial (tokenize square (p ++ v)) := by
  generalize hlast : (tokenize square (p ++ v)).lexemes.reverse.find?
    (fun x => x.token.endsTag && x.span.stop ≤ p.byteLength) = last
  have hbehind {x : Lexeme} (hx : (x.token.endsTag && decide (x.span.stop ≤ p.byteLength)) = false)
      (hend : x.token.endsTag = true) : p.byteLength < x.span.stop := by
    rw [hend, Bool.true_and, decide_eq_false_iff_not] at hx
    omega
  cases last with
  | none =>
      have hnone := List.find?_eq_none.mp hlast
      refine Scanner.begins_scan square .initial p v nofun (fun _ => rfl) hfault ?_
      rw [show Scanner.State.initial.offset + p.byteLength = p.byteLength from Nat.zero_add _]
      exact clear_of_cutsTag hcut fun x hx =>
        hbehind (Bool.eq_false_iff.mpr (hnone x (List.mem_reverse.mpr hx)))
  | some y =>
      obtain ⟨hy, after, before, hls, hafter⟩ := List.find?_eq_some_iff_append.mp hlast
      rw [Bool.and_eq_true, decide_eq_true_eq] at hy
      rw [List.reverse_eq_iff, List.reverse_append, List.reverse_cons, List.append_assoc] at hls
      obtain ⟨s', t, hcloses, hoffset, hcloser⟩ :=
        Scanner.exists_closes_of_eq square .initial (p ++ v) hls hy.1
      obtain ⟨cs, hcs, -, hlength⟩ := hcloses.exists_append
      have hle : cs.byteLength ≤ p.byteLength := by
        rw [hoffset] at hlength
        exact Nat.le_trans (Nat.le_of_eq ((Nat.zero_add _).symm.trans hlength.symm)) hy.2
      obtain ⟨q, rfl, rfl⟩ := Text.exists_of_append_eq_append hcs.symm hle
      have hscan := hcloses.scan_eq
      rw [List.append_assoc] at hcloses
      have hscan' := (hcloses.swap (.cut (List.prefix_append q v))).scan_eq
      have hrest : (Scanner.scan square s' (q ++ v)).lexemes = after.reverse := by
        rw [tokenize, hscan, Lexing.prepend, ← List.append_assoc] at hls
        exact List.append_cancel_left hls
      have hoffset' : s'.offset + q.byteLength = Text.byteLength (cs ++ q) := by
        rw [hlength, Text.byteLength_append]
        exact congrArg (· + q.byteLength) (Nat.zero_add _)
      have hq (m : Stage) : (Scanner.scan square s' q).Begins (m.next y.token)
          (Scanner.scan square s' (q ++ v)) := by
        refine Scanner.begins_scan square s' q v hcloses.mode.1
          (fun htext => next_of_endsTag hy.1 (hcloser htext)) ?_ ?_
        · rw [tokenize, hscan] at hfault
          exact hfault
        · rw [hrest, hoffset']
          refine clear_of_cutsTag ?_ fun x hx =>
            hbehind ((Bool.not_eq_true' _).mp (hafter x (List.mem_reverse.mp hx)))
          rw [hls, ← List.append_assoc] at hcut
          exact cutsTag_append hcut
      rw [tokenize, tokenize, hscan', hscan]
      refine ⟨?_, (hq .initial).fault⟩
      rw [Lexing.prepend, Lexing.prepend, List.append_assoc, List.append_assoc]
      exact begins_behind hy.1 fun m => (hq m).lexemes

/-! ## Reports -/

/-- Tokens that begin those of a template are refused only because they end. -/
theorem code_of_begins {K : Cut} {g g' : Grammar} {ls' : List Lexeme} {d : Diagnostic}
    {prog : Program} (hg : Shares K g g') (htokens : K.tokens = tokensOf ls) (hzero : K.shared 0)
    (hshared : ∀ x ∈ ls, K.shared x.span.start ∧ K.shared x.span.stop)
    (hstarred : ¬Starred (tokensOf ls)) (h : Grammar.Begins K.whole .initial ls ls')
    (hparse : g'.parse ls' = .ok prog) (hd : g.parse ls = .error d) :
    d.code = some .incompleteInput := by
  obtain ⟨r, hprogram, rfl⟩ := exists_refusal_of_parse hd
  rcases follows_program hg htokens hzero hshared h hprogram with hout | ⟨r', hr', -⟩
  · cases r with
    | rejected e => exact absurd (htokens ▸ hout.2) hstarred
    | mismatch expected since found =>
        obtain rfl : found = none := hout
        rfl
  · cases hr'.symm.trans (program_of_parse hparse)

/-- Words end no tag. -/
theorem endsTag_of_isWord {t : Token} (h : isWord t = true) : t.endsTag = false := by
  cases t <;> first | rfl | cases h

/-- Where parameters can stand, a token may be the last one whatever it is. -/
theorem Grammar.Begins.free {whole : Bool} {x : Lexeme} {ls' : List Lexeme}
    (hm : m.noParams = false) (h : Grammar.Begins whole (m.next x.token) ls ls') :
    Grammar.Begins whole m (x :: ls) (x :: ls') :=
  .token (fun hparams => absurd (hm.symm.trans hparams) Bool.false_ne_true) h

/-- Tokens that end with a tag begin what the tokens they are taken from begin. -/
theorem begins_of_isPrefix {ls' front : List Lexeme} (h : Grammar.Begins false m ls ls')
    (hfront : front <+: ls) (hend : ∀ x ∈ front.getLast?, x.token.endsTag = true) :
    Grammar.Begins false m front ls' := by
  induction h generalizing front with
  | stop h =>
      obtain rfl := List.prefix_nil.mp hfront
      exact .stop h
  | piece hwhole hm h =>
      rcases List.prefix_cons_iff.mp hfront with rfl | ⟨front, rfl, hmore⟩
      · exact .stop nofun
      · obtain rfl := List.prefix_nil.mp hmore
        exact .piece hwhole hm h
  | opener hwhole hm h =>
      rcases List.prefix_cons_iff.mp hfront with rfl | ⟨front, rfl, hmore⟩
      · exact .stop nofun
      · rcases List.prefix_cons_iff.mp hmore with rfl | ⟨front, rfl, hnil⟩
        · exact .piece hwhole hm h
        · obtain rfl := List.prefix_nil.mp hnil
          exact .opener hwhole hm h
  | link hwhole hm h =>
      rcases List.prefix_cons_iff.mp hfront with rfl | ⟨front, rfl, hmore⟩
      · exact .stop nofun
      · obtain rfl := List.prefix_nil.mp hmore
        exact .link hwhole hm h
  | word _ _ _ hoff =>
      rcases List.eq_nil_or_concat front with rfl | ⟨before, x, rfl⟩
      · exact .stop nofun
      · rw [List.concat_eq_append] at hfront hend
        have hx := hend x (by rw [List.getLast?_concat]; rfl)
        have hmem := (hfront.map Lexeme.token).mem
          (List.mem_map_of_mem (List.mem_append_right before (List.mem_singleton_self x)))
        cases hx.symm.trans (endsTag_of_isWord (hoff.words _ hmem))
  | token _ _ ih =>
      rcases List.prefix_cons_iff.mp hfront with rfl | ⟨front, rfl, hmore⟩
      · exact .stop nofun
      · refine .token (fun _ hnil => ?_) (ih hmore fun x hx => ?_)
        · subst hnil
          exact startsPair_of_endsTag (hend _ rfl)
        · cases front with
          | nil => cases hx
          | cons y front => exact hend x (by rw [List.getLast?_cons_cons]; exact hx)

/-- **A part whose tokens begin those of a template is refused only as incomplete.** -/
theorem isIncomplete_of_begins {o : Options} {prog : Program} {f : ParseFailure}
    (hparse : parseRaw o (p ++ v) = .ok prog)
    (h : (tokenize o.brackets.isList p).Begins .initial (tokenize o.brackets.isList (p ++ v)))
    (hf : parseRaw o p = .error f) : f.isIncomplete = true := by
  obtain ⟨-, hprog⟩ := parseRaw_eq_ok_iff.mp hparse
  have hone {d : Diagnostic} (hd : d.code.any Code.isIncomplete = true) :
      (ParseFailure.one d).isIncomplete = true := by
    rw [ParseFailure.isIncomplete, ParseFailure.one, List.all_cons, hd]
    rfl
  have hcode {front : List Lexeme} (hfront : front <+: (tokenize o.brackets.isList p).lexemes)
      (hbegins : Grammar.Begins false .initial front (tokenize o.brackets.isList (p ++ v)).lexemes)
      {d : Diagnostic} (hd : (o.grammar p).parse front = .error d) :
      d.code = some .incompleteInput := by
    have hg : Shares ⟨false, (· ≤ p.byteLength), tokensOf front⟩ (o.grammar p)
        (o.grammar (p ++ v)) := by
      have hshares : Shares ⟨false, (· ≤ p.byteLength), tokensOf front⟩ (o.grammar (p ++ []))
        (o.grammar (p ++ v)) := shares_append (.ofOptions o) [] v id
      rwa [List.append_nil] at hshares
    have hlaid := Scanner.laid_scan o.brackets.isList .initial p rfl
    refine code_of_begins hg rfl (Nat.zero_le _) (fun x hx => ?_) (fun hstarred => ?_) hbegins
      hprog hd
    · have hstop := hlaid.stop_le x (hfront.mem hx)
      rw [show Scanner.State.initial.offset + p.byteLength = p.byteLength from Nat.zero_add _]
        at hstop
      exact ⟨Nat.le_trans (hlaid.start_le_stop x (hfront.mem hx)) hstop, hstop⟩
    · exact not_starred_tokenize _ _ (hstarred.mono (hfront.map Lexeme.token).subset)
  obtain ⟨d, rfl, ⟨fault, hfault, rfl⟩ | ⟨-, hd⟩⟩ := exists_of_parseRaw_eq_error hf
  · refine hone ?_
    rcases lexicalReport_cases (o.grammar p) (tokenize o.brackets.isList p) fault with
      ⟨hreport, -⟩ | ⟨hd, hcomplete⟩
    · have hne := h.fault fault hfault
      have hkind : fault.kind.code.isIncomplete = true := by
        cases hfault : fault.kind <;> first | rfl | exact absurd hfault hne
      rw [hreport]
      exact hkind
    · have hfront := (tokenize o.brackets.isList p).finished_isPrefix
      have hbegins := begins_of_isPrefix h.lexemes hfront (Lexing.endsTag_of_finished _)
      exact absurd (hcode hfront hbegins hd) hcomplete
  · refine hone ?_
    rw [hcode List.prefix_rfl h.lexemes hd]
    rfl

/-- **What is cut off from a template is accepted, or refused as incomplete.**  This holds of
every cut that lies in no tag, be it in text, in a comment or in a raw block.  It also holds of
a cut inside a tag if no character is out of place and the tokens in front of it begin those of
the template, where the last of them may break off: between tags as the start of a statement or
of a link, and in a tag as a word. -/
theorem incomplete_of_parseRaw {o : Options} {p v : Text} {prog : Program}
    (hparse : parseRaw o (p ++ v) = .ok prog)
    (hcut : cutsTag p.byteLength (tokenize o.brackets.isList (p ++ v)).lexemes = false ∨
      (tokenize o.brackets.isList p).Begins .initial (tokenize o.brackets.isList (p ++ v))) :
    (∃ early, parseRaw o p = .ok early) ∨
      ∃ f, parseRaw o p = .error f ∧ f.isIncomplete = true := by
  have hbegins := hcut.elim (begins_of_cutsTag (parseRaw_eq_ok_iff.mp hparse).1) id
  cases hp : parseRaw o p with
  | ok early => exact .inl ⟨early, rfl⟩
  | error f => exact .inr ⟨f, rfl, isIncomplete_of_begins hparse hbegins hp⟩

/-- The text `{{#a b.c}}d{{else}}e{{/a}}`. -/
def guardedTemplate : Text :=
  "\x7b\x7b#a b.c\x7d\x7dd\x7b\x7belse\x7d\x7de\x7b\x7b/a\x7d\x7d".toList

/-- It is cut in its text, behind the point of its parameter, and in its else tag. -/
theorem incomplete_guardedTemplate :
    (∃ prog, parseRaw {} guardedTemplate = .ok prog) ∧
      ∀ n, n = 11 ∨ n = 7 ∨ n = 17 → (∃ early, parseRaw {} (guardedTemplate.take n) = .ok early) ∨
        ∃ f, parseRaw {} (guardedTemplate.take n) = .error f ∧ f.isIncomplete = true := by
  have hok : (parseRaw {} guardedTemplate).toBool = true := by cbv
  cases hprog : parseRaw {} guardedTemplate with
  | error f =>
      rw [hprog] at hok
      cases hok
  | ok prog =>
      have hcut : cutsTag (Text.byteLength (guardedTemplate.take 11))
          (tokenize false guardedTemplate).lexemes = false := by cbv
      have hwhole : (tokenize false guardedTemplate).lexemes =
          [⟨.opener .block ['{', '{', '#'], ⟨0, 3⟩⟩, ⟨.ident ['a'], ⟨3, 4⟩⟩, ⟨.ident ['b'], ⟨5, 6⟩⟩,
            ⟨.separator .dot, ⟨6, 7⟩⟩, ⟨.ident ['c'], ⟨7, 8⟩⟩, ⟨.closer ['}', '}'], ⟨8, 10⟩⟩,
            ⟨.content ['d'], ⟨10, 11⟩⟩] ++ (tokenize false guardedTemplate).lexemes.drop 7 := by
        cbv
      have hpoint : (tokenize false (guardedTemplate.take 7)).Begins .initial
          (tokenize false guardedTemplate) := by
        have hpart : tokenize false (guardedTemplate.take 7) =
            ⟨[⟨.opener .block ['{', '{', '#'], ⟨0, 3⟩⟩, ⟨.ident ['a'], ⟨3, 4⟩⟩,
              ⟨.ident ['b'], ⟨5, 6⟩⟩, ⟨.ident ['.'], ⟨6, 7⟩⟩], none⟩ := by cbv
        refine ⟨?_, fun f hf => ?_⟩
        · rw [hpart, hwhole]
          refine .free rfl (.free rfl (.free rfl (.word rfl rfl rfl ?_)))
          exact ⟨List.forall_mem_singleton.mpr rfl, rfl, absurd rfl, fun h => (by cases h),
            fun h => (by cases h), fun h => (by cases h)⟩
        · rw [hpart] at hf
          cases hf
      have hlink : (tokenize false (guardedTemplate.take 17)).Begins .initial
          (tokenize false guardedTemplate) := by
        have hpart : tokenize false (guardedTemplate.take 17) =
            ⟨(tokenize false guardedTemplate).lexemes.take 7 ++
              [⟨.opener .chain ['{', '{', 'e', 'l', 's', 'e'], ⟨11, 17⟩⟩], none⟩ := by cbv
        refine ⟨?_, fun f hf => ?_⟩
        · rw [hpart, hwhole]
          exact .free rfl (.free rfl (.free rfl (.free rfl (.free rfl (.free rfl (.free rfl
            (.link rfl rfl rfl)))))))
        · rw [hpart] at hf
          cases hf
      refine ⟨⟨prog, rfl⟩, ?_⟩
      rintro n (rfl | rfl | rfl)
      · exact incomplete_of_parseRaw (v := guardedTemplate.drop 11) hprog (.inl hcut)
      · exact incomplete_of_parseRaw (v := guardedTemplate.drop 7) hprog (.inr hpoint)
      · exact incomplete_of_parseRaw (v := guardedTemplate.drop 17) hprog (.inr hlink)

/-- A part that is refused for another reason is neither accepted nor incomplete. -/
theorem not_incomplete_of_mapError {o : Options}
    (h : (parseRaw o p).mapError ParseFailure.isIncomplete = .error false) :
    ¬((∃ early, parseRaw o p = .ok early) ∨
      ∃ f, parseRaw o p = .error f ∧ f.isIncomplete = true) := by
  rintro (⟨early, hearly⟩ | ⟨f, hf, hincomplete⟩)
  · rw [hearly] at h
    cases h
  · rw [hf] at h
    cases hincomplete.symm.trans (Except.error.inj h)

/-- A cut between the two braces of a `}}` leaves one that starts no token: not every part of a
template is accepted or incomplete. -/
theorem unexpected_of_cut : ¬∀ (o : Options) (p v : Text) (prog : Program),
    parseRaw o (p ++ v) = .ok prog → (∃ early, parseRaw o p = .ok early) ∨
      ∃ f, parseRaw o p = .error f ∧ f.isIncomplete = true := by
  intro hall
  have hwhole : (parseRaw {} ("\x7b\x7bfoo\x7d".toList ++ ['\x7d'])).toBool = true := by cbv
  cases hprog : parseRaw {} ("\x7b\x7bfoo\x7d".toList ++ ['\x7d']) with
  | error f =>
      rw [hprog] at hwhole
      cases hwhole
  | ok prog => exact not_incomplete_of_mapError (by cbv) (hall {} _ _ prog hprog)

/-- A cut behind the key of a second named argument leaves a name where a call ends, although
the tokens of the part are the first ones of the template and no character is out of place. -/
theorem unexpected_of_key : ¬∀ (o : Options) (p v : Text) (prog : Program),
    parseRaw o (p ++ v) = .ok prog → (tokenize o.brackets.isList p).fault = none →
      (tokenize o.brackets.isList p).lexemes <+: (tokenize o.brackets.isList (p ++ v)).lexemes →
      (∃ early, parseRaw o p = .ok early) ∨
        ∃ f, parseRaw o p = .error f ∧ f.isIncomplete = true := by
  intro hall
  have hwhole : (parseRaw {} ("\x7b\x7bf a=c b".toList ++ "=d\x7d\x7d".toList)).toBool = true := by
    cbv
  have hfront : (tokenize false "\x7b\x7bf a=c b".toList).lexemes.isPrefixOf
      (tokenize false ("\x7b\x7bf a=c b".toList ++ "=d\x7d\x7d".toList)).lexemes = true := by cbv
  cases hprog : parseRaw {} ("\x7b\x7bf a=c b".toList ++ "=d\x7d\x7d".toList) with
  | error f =>
      rw [hprog] at hwhole
      cases hwhole
  | ok prog =>
      exact not_incomplete_of_mapError (by cbv)
        (hall {} _ _ prog hprog (by cbv) (List.isPrefixOf_iff_prefix.mp hfront))

end Stache
