import Mathlib.Data.List.Forall2
import Stache.Proofs.Grammar.Earlier
import Stache.Proofs.Grammar.Refusals
import Stache.Proofs.Grammar.Seams
import Stache.Proofs.Layout.InPlace
import Stache.Proofs.Token.Faults

/-!
# Failures that can be shown

A template that is not accepted has one diagnostic, and each of its labels has the lines and
columns of a span between characters: that of some tokens, of the nodes they write, or of the
fault that stops the scanner.  Such a span is found again from its lines and columns, so the
report of the diagnostic marks every label (`shown_of_parse`).
-/

namespace Stache

open Source

/-! ## Spans that are shown -/

/-- The span of some tokens that stand side by side, or of what stops the scanner. -/
def Lexing.Covers (l : Lexing) (span : Span) : Prop :=
  (∃ own, own <:+: l.lexemes ∧ own ≠ [] ∧ span = covered own) ∨
    ∃ f, l.fault = some f ∧ span = f.span

/-- What tokens cover starts and ends between characters. -/
theorem Laid.bounded_covered {cut inside : Bool} {ls own : List Lexeme} {text : Text}
    (h : Laid cut inside 0 ls text) (hown : own <:+: ls) (hne : own ≠ []) :
    Bounded text (covered own) := by
  obtain ⟨before, after, rfl⟩ := hown
  rw [List.append_assoc] at h
  obtain ⟨u, w, v, rfl, hstart, hstop, -⟩ := Grammar.exists_slice_of_laid h hne
  refine ⟨⟨u, w ++ v, rfl, hstart.symm⟩,
    ⟨u ++ w, v, (List.append_assoc u w v).symm, hstop.symm⟩, ?_⟩
  rw [hstart, hstop, Text.byteLength_append]
  exact Nat.le_add_right _ _

theorem bounded_of_covers {square : Bool} {text : Text} {span : Span}
    (h : (tokenize square text).Covers span) : Bounded text span := by
  rcases h with ⟨own, hown, hne, rfl⟩ | ⟨f, hf, rfl⟩
  · exact (laid_tokenize square text).bounded_covered hown hne
  · exact boundary_of_fault hf

/-! ## Diagnostics of the grammar -/

namespace Grammar

variable {g : Grammar} {ls : List Lexeme} {d : Diagnostic}

/-- From the first of some tokens to the last, they are covered. -/
theorem union_eq_covered {l : Lexeme} {own : List Lexeme} (h : InSequence (l :: own)) :
    l.span.union (endOf l.span own) = covered (l :: own) := by
  have hlast : (l :: own).getLast (List.cons_ne_nil l own) ∈ l :: own := List.getLast_mem _
  have hfrom : l.span.start ≤ (endOf l.span own).start := by
    rw [endOf_eq_getLast]
    exact (h.covered_of_mem hlast).1
  have hto : l.span.stop ≤ (endOf l.span own).stop := (h.covered_of_mem List.mem_cons_self).2
  rw [Span.union, Nat.min_eq_left hfrom, Nat.max_eq_right hto]
  rfl

/-- A diagnostic shows the fault itself. -/
theorem exists_primary_of_parse (h : g.parse ls = .error d) :
    ∃ l ∈ d.labels, l.primary = true := by
  obtain ⟨r, -, rfl⟩ := exists_refusal_of_parse h
  cases r with
  | rejected e =>
      cases e with
      | mismatchedClose _ _ _ closedAt | openNotPath _ closedAt =>
          cases closedAt <;> exact ⟨_, List.mem_cons_self, rfl⟩
      | invalidPath | inverseOnDecorator | brokenChain => exact ⟨_, List.mem_cons_self, rfl⟩
  | mismatch expected since found => cases found <;> exact ⟨_, List.mem_cons_self, rfl⟩

/-- A template without tokens is accepted. -/
theorem ne_nil_of_parse_eq_error (h : g.parse ls = .error d) : ls ≠ [] := by
  rintro rfl
  have hbody : statements g ⟨⟨0, 0⟩, []⟩ = .ok ⟨[], ⟨⟨0, 0⟩, []⟩, Nat.one_pos⟩ := by
    rw [statements]
    rfl
  cases h.symm.trans (parse_of_program (program_of_rest_eq_nil hbody rfl))

/-- The labels of the grammar's diagnostics are at the places of tokens. -/
theorem exists_covered_of_parse (hg : g.Literal) (hls : InSequence ls)
    (h : g.parse ls = .error d) {l : Label} (hl : l ∈ d.labels) :
    ∃ own, own <:+: ls ∧ own ≠ [] ∧
      l.loc = Source.location g.text g.builder.source (covered own) := by
  have hne := ne_nil_of_parse_eq_error h
  obtain ⟨r, hr, rfl⟩ := exists_refusal_of_parse h
  have hpoints := pointsInto_program hg ls r hr
  cases r with
  | rejected e => exact hpoints.labels l hl
  | mismatch expected since found =>
      cases found with
      | none =>
          have hlast := List.dropLast_concat_getLast hne
          refine ⟨[ls.getLast hne], ⟨ls.dropLast, [], ?_⟩, List.cons_ne_nil _ _, ?_⟩
          · rw [List.append_nil, hlast]
          · rw [List.mem_singleton.mp hl, List.getLast?_eq_getLast_of_ne_nil hne]
            rfl
      | some found =>
          obtain ⟨first, own, hown, hsince, hfound⟩ := hpoints
          refine ⟨first :: own, hown, List.cons_ne_nil _ _, ?_⟩
          obtain ⟨before, after, rfl⟩ := hown
          rw [List.mem_singleton.mp hl, ← union_eq_covered hls.left.right, ← hfound, ← hsince]

/-- The codes of what the grammar reports. -/
theorem code_of_parse (hg : g.Literal) (hstar : ¬Starred (tokensOf ls))
    (h : g.parse ls = .error d) :
    d.code ∈ [Code.unexpectedToken, .incompleteInput, .invalidPath, .mismatchedClose, .openNotPath,
      .inverseOnDecorator].map some := by
  obtain ⟨r, hr, rfl⟩ := exists_refusal_of_parse h
  have hpoints := pointsInto_program hg ls r hr
  cases r with
  | rejected e =>
      rw [Refusal.diagnostic, code_diagnostic]
      cases e with
      | brokenChain loc => exact absurd (hpoints.chain rfl) hstar
      | invalidPath | mismatchedClose | openNotPath | inverseOnDecorator =>
          simp [BuildError.code]
  | mismatch expected since found =>
      cases found with
      | none => exact List.mem_map_of_mem (.tail _ (.head _))
      | some found => exact List.mem_map_of_mem (.head _)

end Grammar

/-! ## Reports -/

/-- The codes that a template can be refused with. -/
def Code.ofParsing : List Code :=
  [.unexpectedCharacter, .unterminatedComment, .unterminatedString, .unterminatedRawBlock,
    .unexpectedToken, .incompleteInput, .invalidPath, .mismatchedClose, .openNotPath,
    .inverseOnDecorator]

/-- A mark shows a label of a diagnostic of the text: it has the span that the lines and columns
of the label stand for. -/
structure Label.ShownBy (text : Text) (source : Option String) (lexing : Lexing) (l : Label)
    (m : Mark) : Prop where
  message : m.message = l.message
  primary : m.primary = l.primary
  loc : l.loc = Source.location text source m.span
  covers : lexing.Covers m.span
  forwards : m.span.start ≤ m.span.stop
  inside : m.span.stop ≤ text.byteLength

theorem forall₂_filterMap {α β : Type} {R : α → β → Prop} {f : α → Option β} {xs : List α}
    (h : ∀ x ∈ xs, ∃ y, f x = some y ∧ R x y) : List.Forall₂ R xs (xs.filterMap f) := by
  induction xs with
  | nil => exact .nil
  | cons x xs ih =>
      obtain ⟨⟨y, hy, hR⟩, h⟩ := List.forall_mem_cons.mp h
      rw [List.filterMap_cons_some hy]
      exact .cons hR (ih h)

/-- A label at the place of a span that is shown has a mark. -/
theorem exists_mark_of_covers {square : Bool} {text : Text} {source : Option String} {l : Label}
    {span : Span} (hspan : (tokenize square text).Covers span)
    (hloc : l.loc = Source.location text source span) :
    ∃ m, Report.mark? text l = some m ∧ l.ShownBy text source (tokenize square text) m := by
  have hbounded := bounded_of_covers hspan
  refine ⟨⟨span, l.message, l.primary⟩, ?_, rfl, rfl, hloc, hspan, hbounded.forwards,
    hbounded.stop.le_byteLength⟩
  rw [Report.mark?, hloc, Report.range?_location hbounded]
  rfl

/-- A diagnostic about a template: what it is and where its labels stand. -/
structure Diagnostic.Places (text : Text) (source : Option String) (lexing : Lexing)
    (d : Diagnostic) : Prop where
  code : d.code ∈ Code.ofParsing.map some
  primary : ∃ l ∈ d.labels, l.primary = true
  covers : ∀ l ∈ d.labels, ∃ span, lexing.Covers span ∧ l.loc = Source.location text source span

theorem places_of_fault {text : Text} {source : Option String} {lexing : Lexing} {f : Fault}
    (h : lexing.fault = some f) : (f.diagnostic text source).Places text source lexing := by
  refine ⟨?_, ⟨_, List.mem_cons_self, rfl⟩, fun l hl => ⟨f.span, .inr ⟨f, h, rfl⟩, ?_⟩⟩
  · obtain ⟨kind, span⟩ := f
    show some kind.code ∈ _
    cases kind <;> simp [FaultKind.code, Code.ofParsing]
  · rw [List.mem_singleton.mp hl]

/-- What the grammar reports about the first tokens of a template. -/
theorem places_of_parse {o : Options} (ho : o.Literal) {text : Text} {ls : List Lexeme}
    {d : Diagnostic} (hls : ls <+: (tokenize o.brackets.isList text).lexemes)
    (h : (o.grammar text).parse ls = .error d) :
    d.Places text o.sourceName (tokenize o.brackets.isList text) := by
  have hg := ho.grammar text
  have hstar : ¬Grammar.Starred (Grammar.tokensOf ls) := fun h =>
    Grammar.not_starred_tokenize _ _ (h.mono (hls.map Lexeme.token).subset)
  have hsequence : InSequence ls := by
    obtain ⟨more, hmore⟩ := hls
    have hall := (laid_tokenize o.brackets.isList text).inSequence
    rw [← hmore] at hall
    exact hall.left
  refine ⟨?_, Grammar.exists_primary_of_parse h, fun l hl => ?_⟩
  · exact List.map_subset some (by decide) (Grammar.code_of_parse hg hstar h)
  · obtain ⟨own, hown, hne, hloc⟩ := Grammar.exists_covered_of_parse hg hsequence h hl
    exact ⟨covered own, .inl ⟨own, hown.trans hls.isInfix, hne, rfl⟩, hloc⟩

/-- What is reported about a template that is not accepted. -/
theorem exists_places_of_parseRaw {o : Options} (ho : o.Literal) {text : Text}
    {failure : ParseFailure} (h : parseRaw o text = .error failure) :
    ∃ d, failure = .one d ∧ d.Places text o.sourceName (tokenize o.brackets.isList text) := by
  obtain ⟨d, rfl, ⟨f, hf, rfl⟩ | ⟨-, hd⟩⟩ := exists_of_parseRaw_eq_error h
  · refine ⟨_, rfl, ?_⟩
    rcases lexicalReport_cases (o.grammar text) (tokenize o.brackets.isList text) f with
      ⟨hreport, -⟩ | ⟨hreport, -⟩
    · rw [hreport]
      exact places_of_fault hf
    · exact places_of_parse ho (Lexing.finished_isPrefix _) hreport
  · exact ⟨d, rfl, places_of_parse ho List.prefix_rfl hd⟩

/-- **Every failure can be shown.**  A template that is not accepted has one diagnostic.  Its
code is one of the scanner, the grammar or the builder, it has a primary label, and its report
marks every label at the bytes that the lines and columns of the label stand for: those of some
tokens side by side or of what stops the scanner.

Normalizing the tree adds no failure: the pass as an edit breaks no slot of any tree. -/
theorem shown_of_parse {o : Options} (ho : o.Literal) (text : Text) :
    (∀ failure, parseRaw o text = .error failure ∨ parse o text = .error failure →
      ∃ d, failure.diagnostics = [d] ∧ d.code ∈ Code.ofParsing.map some ∧
        (∃ l ∈ d.labels, l.primary = true) ∧
        ∃ marks, (Report.ofDiagnostic text d).marks = some marks ∧
          List.Forall₂ (Label.ShownBy text o.sourceName (tokenize o.brackets.isList text))
            d.labels marks) ∧
      ∀ p, ∃ visits, ({ ignoreStandalone := o.ignoreStandalone } : Layout.Control).edit p =
        ⟨.ok (normalize o p, ⟨o.ignoreStandalone, true⟩), visits, []⟩ := by
  refine ⟨fun failure h => ?_, fun p => Layout.Control.edit_eq _ p⟩
  have hraw : parseRaw o text = .error failure := h.elim id parse_eq_error_iff.mp
  obtain ⟨d, rfl, hcode, hprimary, hcovers⟩ := exists_places_of_parseRaw ho hraw
  refine ⟨d, rfl, hcode, hprimary, d.labels.filterMap (Report.mark? text), if_neg ?_,
    forall₂_filterMap fun l hl => ?_⟩
  · obtain ⟨l, hl, -⟩ := hprimary
    exact fun hempty => List.ne_nil_of_mem hl (List.isEmpty_iff.mp hempty)
  · obtain ⟨span, hspan, hloc⟩ := hcovers l hl
    exact exists_mark_of_covers hspan hloc

/-- A letter of two bytes and a line feed in front of a block that is closed under another
name. -/
def mismatchedText : Text := 'é' :: '\n' :: mismatchedTemplate

/-- Both labels of a wrong closing tag are marked, the name of the block and the name in the
tag. -/
theorem shown_mismatchedText :
    ∃ d marks, parseRaw {} mismatchedText = .error (.one d) ∧ d.code = some .mismatchedClose ∧
      (Report.ofDiagnostic mismatchedText d).marks = some marks ∧
      List.Forall₂ (Label.ShownBy mismatchedText none (tokenize false mismatchedText)) d.labels
        marks ∧
      marks.map Mark.span = [⟨6, 7⟩, ⟨12, 13⟩] := by
  have hparse : parseRaw {} mismatchedText = .error (.one
      (BuildError.mismatchedClose ['a'] ⟨none, ⟨2, 3⟩, ⟨2, 4⟩⟩ ['b']
        (some ⟨none, ⟨2, 9⟩, ⟨2, 10⟩⟩)).diagnostic) := by cbv
  obtain ⟨d, hd, -, -, marks, hmarks, hshown⟩ :=
    (shown_of_parse (o := {}) Options.literal_default mismatchedText).1 _ (.inl hparse)
  cases hd
  refine ⟨_, marks, hparse, rfl, hmarks, hshown, ?_⟩
  cases hmarks
  decide

end Stache
