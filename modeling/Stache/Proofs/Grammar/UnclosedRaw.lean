import Stache.Proofs.Grammar.Earlier
import Stache.Proofs.Grammar.RawEnds
import Stache.Proofs.Grammar.RawTags
import Stache.Proofs.Token.Neighbours

/-!
# Reports of raw blocks without an end

A template is reported to have a raw block without an end only where it has one.  The label of
the report starts at the four braces that open the block and ends with the template
(`unclosed_of_parse`).

The scanner takes any `}}}}` for the end of an opening tag and the last opener it has seen for
its start, whatever stands between them.  It is the grammar that knows better: of a `}}}}` that
ends no opening tag it would report that the token is unexpected, and that report comes first.
-/

namespace Stache

open Source

/-! ## What the grammar makes of the tokens -/

namespace Grammar

variable {g : Grammar} {ls : List Lexeme} {d : Diagnostic}

/-- The grammar reports no raw blocks without an end. -/
theorem code_ne_unterminatedRawBlock (h : g.parse ls = .error d) :
    d.code ≠ some .unterminatedRawBlock := by
  intro hcode
  obtain ⟨r, -, rfl⟩ := exists_refusal_of_parse h
  cases r with
  | rejected e =>
      rw [Refusal.diagnostic, code_diagnostic] at hcode
      cases e <;> cases hcode
  | mismatch expected since found => cases found <;> cases hcode

/-- Tokens that are refused only because they end have no stray `}}}}`. -/
theorem rawOpened_of_incomplete (h : g.parse ls = .error d)
    (hcode : d.code = some .incompleteInput) : RawOpened g ls := by
  obtain ⟨r, hr, rfl⟩ := exists_refusal_of_parse h
  cases r with
  | rejected e =>
      rw [Refusal.diagnostic, code_diagnostic] at hcode
      cases e <;> cases hcode
  | mismatch expected since found =>
      cases found with
      | none => exact (rawOpened_of_program ls).2 expected since hr
      | some found => cases hcode

theorem rawOpened_of_parse {p : Program} (h : g.parse ls = .ok p) : RawOpened g ls :=
  (rawOpened_of_program ls).1 p (program_of_parse h)

end Grammar

theorem Lexing.finished_eq {l : Lexing} (h : ∀ x ∈ l.lexemes.getLast?, x.token.endsTag = true) :
    l.finished = l.lexemes :=
  l.finished_isPrefix.eq_of_length_le (Lexing.isPrefix_finished h List.prefix_rfl).length_le

/-- A raw block without an end is reported by the scanner, and the grammar has nothing against
the tokens that are finished but that they end. -/
theorem exists_fault_of_unterminatedRawBlock {o : Options} {text : Text} {failure : ParseFailure}
    {d : Diagnostic} (h : parseRaw o text = .error failure) (hd : d ∈ failure.diagnostics)
    (hcode : d.code = some .unterminatedRawBlock) :
    ∃ f, (tokenize o.brackets.isList text).fault = some f ∧ f.kind = .unterminatedRawBlock ∧
      d = f.diagnostic text o.sourceName ∧
      Grammar.RawOpened (o.grammar text) (tokenize o.brackets.isList text).finished := by
  obtain ⟨d', rfl, hreport⟩ := exists_of_parseRaw_eq_error h
  obtain rfl := List.mem_singleton.mp hd
  obtain ⟨f, hf, rfl⟩ := hreport.resolve_right fun hparse =>
    Grammar.code_ne_unterminatedRawBlock hparse.2 hcode
  obtain ⟨hfault, hincomplete⟩ := (lexicalReport_cases _ _ f).resolve_right fun hparse =>
    Grammar.code_ne_unterminatedRawBlock hparse.1 hcode
  rw [hfault] at hcode ⊢
  refine ⟨f, hf, ?_, rfl, ?_⟩
  · obtain ⟨kind, span⟩ := f
    cases kind <;> first | rfl | cases hcode
  · cases hparse : (o.grammar text).parse (tokenize o.brackets.isList text).finished with
    | ok p => exact Grammar.rawOpened_of_parse hparse
    | error d => exact Grammar.rawOpened_of_incomplete hparse (hincomplete d hparse)

/-! ## The block that has no end -/

/-- The raw block that the tokens of a text end in: its opening tag, which the last of the tokens
ends, and its body, which has no closer. -/
structure UnclosedRawBlock (g : Grammar) (ls : List Lexeme) where
  /-- The tokens in front of the block. -/
  before : List Lexeme
  /-- The place of the `{{{{`. -/
  opener : Span
  /-- The tokens of the call. -/
  called : List Lexeme
  call : Call
  /-- The place of the `}}}}`. -/
  closer : Span
  /-- The text in front of the block. -/
  front : Text
  /-- The text between the braces of the opening tag. -/
  inside : Text
  /-- The text behind the opening tag. -/
  body : Text
  tokens : ls = before ++ ⟨.rawOpener, opener⟩ :: (called ++ [⟨.rawCloser, closer⟩])
  writes : g.WritesCall called call
  text : g.text = front ++ (rawOpening inside ++ body)
  start : opener.start = front.byteLength
  stop : closer.stop = Text.byteLength (front ++ rawOpening inside)
  unclosed : ¬HasRawCloser body

namespace UnclosedRawBlock

open Scanner

variable {g : Grammar} {ls : List Lexeme} (block : UnclosedRawBlock g ls)

/-- Its opener is the last one. -/
theorem lastOpener_eq (start : Nat) : lastOpener start ls = block.opener.start := by
  have hinner : ∀ l ∈ block.called ++ [⟨.rawCloser, block.closer⟩], l.token ≠ .rawOpener := by
    refine List.forall_mem_append.mpr ⟨fun l hl heq => ?_, List.forall_mem_singleton.mpr nofun⟩
    have hl := Grammar.inner_of_writesCall block.writes l hl
    rw [heq] at hl
    cases hl
  rw [show lastOpener start ls = lastOpener start _ from congrArg _ block.tokens,
    lastOpener_append]
  exact lastOpener_of_forall hinner _

/-- The raw blocks that are closed stand in front of it. -/
theorem mem_before {x : Lexeme} (hx : x ∈ ls) {name : Text} (hname : x.token = .rawEnd name) :
    x ∈ block.before := by
  rw [block.tokens] at hx
  rcases List.mem_append.mp hx with hx | hx
  · exact hx
  · rcases List.mem_cons.mp hx with rfl | hx
    · cases hname
    · rcases List.mem_append.mp hx with hx | hx
      · have hinner := Grammar.inner_of_writesCall block.writes x hx
        rw [hname] at hinner
        cases hinner
      · obtain rfl := List.mem_singleton.mp hx
        cases hname

end UnclosedRawBlock

/-- The tokens of an opening tag have its text under them. -/
theorem exists_rawOpening {square : Bool} {text u body : Text} {before called : List Lexeme}
    {s s' : Span} (hls : (tokenize square text).lexemes =
      before ++ ⟨.rawOpener, s⟩ :: (called ++ [⟨.rawCloser, s'⟩]))
    (htext : text = u ++ body) (hu : s'.stop = u.byteLength) :
    ∃ front inside, u = front ++ rawOpening inside ∧ s.start = front.byteLength := by
  have hlaid := laid_tokenize square text
  rw [hls] at hlaid
  have hcloser : (⟨.rawCloser, s'⟩ : Lexeme) ∈ called ++ [⟨.rawCloser, s'⟩] :=
    List.mem_append_right called List.mem_cons_self
  obtain ⟨front, w, v, hfront, -, hs, rfl⟩ :=
    hlaid.exists_slice ⟨.rawOpener, s⟩ (List.mem_append_right before List.mem_cons_self)
  obtain ⟨front', w, v', hfront', -, hs', rfl⟩ := hlaid.exists_slice ⟨.rawCloser, s'⟩
    (List.mem_append_right before (List.mem_cons_of_mem _ hcloser))
  obtain ⟨rfl, rfl⟩ : s = ⟨_, _⟩ ∧ s' = ⟨_, _⟩ := ⟨hs, hs'⟩
  rw [← List.append_assoc] at hfront hfront'
  have hordered := (List.pairwise_append.mp hlaid.ordered).2.1
  have hle := List.rel_of_pairwise_cons hordered hcloser
  simp only [Nat.zero_add] at hle hu ⊢
  obtain ⟨inside, -, hinside, -⟩ := Text.exists_slice hfront
    (hfront'.trans (List.append_assoc _ _ _)) hle
  obtain ⟨rest, -, hrest, -⟩ := Text.exists_slice hfront' htext (Nat.le_of_eq hu)
  have hnil : rest = [] := by
    refine Text.eq_nil_of_byteLength ?_
    rw [hrest, Text.byteLength_append _ rest] at hu
    omega
  refine ⟨front, inside, ?_, rfl⟩
  rw [hrest, hnil, hinside, rawOpening]
  simp only [List.append_assoc, List.append_nil]

/-- **A report of a raw block without an end is right.**  The template ends in such a block: behind
an opener, a call and a `}}}}` no closer is left for it.  The label starts where the block does
and ends with the template.  No `}}}}` of the template is stray, and the raw blocks that are closed
have ended where the label starts. -/
theorem unclosed_of_parse {o : Options} {text : Text} {failure : ParseFailure} {d : Diagnostic}
    (h : parse o text = .error failure) (hd : d ∈ failure.diagnostics)
    (hcode : d.code = some .unterminatedRawBlock) :
    ∃ block : UnclosedRawBlock (o.grammar text) (tokenize o.brackets.isList text).lexemes,
      d.labels.map Label.loc =
          [Source.location text o.sourceName ⟨block.opener.start, text.byteLength⟩] ∧
        (o.grammar text).RawOpened (tokenize o.brackets.isList text).lexemes ∧
        ∀ x ∈ (tokenize o.brackets.isList text).lexemes, ∀ name, x.token = .rawEnd name →
          x.span.stop ≤ block.opener.start := by
  obtain ⟨f, hf, hkind, rfl, hopened⟩ :=
    exists_fault_of_unterminatedRawBlock (parse_eq_error_iff.mp h) hd hcode
  obtain ⟨hspan, u, body, htext, hunclosed, hlast⟩ :=
    Scanner.exists_of_unterminatedRawBlock o.brackets.isList .initial text hf hkind
  obtain ⟨front, ⟨token, s'⟩, hls, hx, hstop⟩ := hlast.resolve_left fun ⟨_, hraw, _⟩ => nomatch hraw
  obtain rfl : token = .rawCloser := hx
  have hfinished : (tokenize o.brackets.isList text).finished =
      (tokenize o.brackets.isList text).lexemes := by
    refine Lexing.finished_eq fun x hx => ?_
    rw [tokenize, hls, List.getLast?_concat] at hx
    cases hx
    rfl
  rw [hfinished] at hopened
  obtain ⟨before, s, called, call, rfl, hcall⟩ := hopened.exists_of_rawCloser hls rfl
  have htokens : (tokenize o.brackets.isList text).lexemes =
      before ++ ⟨.rawOpener, s⟩ :: (called ++ [⟨.rawCloser, s'⟩]) := by
    rw [tokenize, hls, List.append_assoc]
    rfl
  have hu : s'.stop = u.byteLength := hstop.trans (Nat.zero_add _)
  obtain ⟨front, inside, rfl, hs⟩ := exists_rawOpening htokens htext hu
  let block : UnclosedRawBlock (o.grammar text) (tokenize o.brackets.isList text).lexemes :=
    ⟨before, s, called, call, s', front, inside, body, htokens, hcall,
      htext.trans (List.append_assoc _ _ _), hs, hu, hunclosed⟩
  refine ⟨block, ?_, hopened, fun x hx name hname => ?_⟩
  · have hstart := block.lastOpener_eq 0
    have hstop : Scanner.State.initial.offset + text.byteLength = text.byteLength := Nat.zero_add _
    rw [hstop] at hspan
    exact congrArg (fun span => [Source.location text o.sourceName span])
      (hspan.trans (congrArg (Span.mk · text.byteLength) hstart))
  · have hordered := (laid_tokenize o.brackets.isList text).ordered
    rw [htokens] at hordered
    exact (List.pairwise_append.mp hordered).2.2 x (block.mem_before hx hname) _ List.mem_cons_self

/-- What stands behind the first opening tag of `secondRaw`. -/
def secondRawBody : Text := ['x'] ++ (rawClosing ['a'] ++ (rawOpening ['b'] ++ ['y']))

/-- A raw block without an end, behind one that is closed. -/
def secondRaw : Text := rawOpening ['a'] ++ secondRawBody

namespace Scanner

/-- The tokens end with the second opening tag. -/
theorem tokenize_secondRaw : tokenize false secondRaw =
    ⟨[⟨.rawOpener, ⟨0, 4⟩⟩, ⟨.ident ['a'], ⟨4, 5⟩⟩, ⟨.rawCloser, ⟨5, 9⟩⟩,
      ⟨.content ['x'], ⟨9, 10⟩⟩, ⟨.rawEnd ['a'], ⟨10, 20⟩⟩,
      ⟨.rawOpener, ⟨20, 24⟩⟩, ⟨.ident ['b'], ⟨24, 25⟩⟩, ⟨.rawCloser, ⟨25, 29⟩⟩],
      some ⟨.unterminatedRawBlock, ⟨20, 30⟩⟩⟩ := by
  have hfirst : tokenize false secondRaw = (scan false ⟨.raw, 9, false, 0⟩ secondRawBody).prepend
      [⟨.rawOpener, ⟨0, 4⟩⟩, ⟨.ident ['a'], ⟨4, 5⟩⟩, ⟨.rawCloser, ⟨5, 9⟩⟩] := by
    rw [tokenize, scan_of_step rfl, scan_of_step rfl, scan_of_step rfl, scan_of_step rfl]
    rfl
  have hbody : step false ⟨.raw, 9, false, 0⟩ secondRawBody =
      .moved [⟨.content ['x'], ⟨9, 10⟩⟩, ⟨.rawEnd ['a'], ⟨10, 20⟩⟩] ⟨.text, 20, false, 0⟩
        (rawOpening ['b'] ++ ['y']) := by cbv
  have hsecond : scan false ⟨.text, 20, false, 0⟩ (rawOpening ['b'] ++ ['y']) =
      (scan false ⟨.raw, 29, false, 20⟩ ['y']).prepend
        [⟨.rawOpener, ⟨20, 24⟩⟩, ⟨.ident ['b'], ⟨24, 25⟩⟩, ⟨.rawCloser, ⟨25, 29⟩⟩] := by
    rw [scan_of_step rfl, scan_of_step rfl, scan_of_step rfl, scan_of_step rfl]
    rfl
  have hend : step false ⟨.raw, 29, false, 20⟩ ['y'] =
      .failed ⟨.unterminatedRawBlock, ⟨20, 30⟩⟩ := by cbv
  rw [hfirst, scan_of_step hbody, hsecond, scan_of_failed hend]
  rfl

end Scanner

/-- The second block is reported. -/
theorem unclosed_secondRaw : ∃ d : Diagnostic,
    parse {} secondRaw = .error (.one d) ∧ d.code = some .unterminatedRawBlock ∧
      d.labels.map Label.loc = [⟨none, ⟨1, 20⟩, ⟨1, 30⟩⟩] ∧
      ∃ block : UnclosedRawBlock (Options.grammar {} secondRaw) (tokenize false secondRaw).lexemes,
        d.labels.map Label.loc = [Source.location secondRaw none ⟨block.opener.start, 30⟩] := by
  have hparse : parse {} secondRaw = .error (.one
      (Fault.diagnostic ⟨.unterminatedRawBlock, ⟨20, 30⟩⟩ secondRaw none)) := by
    have htokens : tokenize (Options.brackets {}).isList secondRaw = _ := Scanner.tokenize_secondRaw
    rw [parse, parseRaw, htokens]
    cbv
  obtain ⟨block, hlabels, -, -⟩ := unclosed_of_parse hparse List.mem_cons_self rfl
  exact ⟨_, hparse, rfl, by decide, block, hlabels⟩

end Stache
