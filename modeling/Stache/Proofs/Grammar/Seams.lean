import Mathlib
import Stache.Proofs.Grammar.Located

/-!
# Seams

The statements of a program follow one another without a gap.  Only the backslash
of an escape may be dropped between two of them (`seamless_of_writesNode`).  A
program that the grammar puts together from its statements spans them
(`spansBody_of_mem_sections`).
-/

namespace Stache

/-- Between two statements that follow one another in the program nothing is left out of the
text but the backslash of an escape. -/
def Program.Seamless (text : Text) (p : Program) : Prop :=
  ∀ before s t after, p.body = before ++ s :: t :: after →
    ∃ u gap rest, text = u ++ (gap ++ rest) ∧
      s.loc.stop = Source.position text u.byteLength ∧
      t.loc.start = Source.position text (Text.byteLength (u ++ gap)) ∧ IsGap gap rest

/-- The place of the program is from the start of its first statement to the end of its last.
It has none if it is empty. -/
def Program.SpansBody (p : Program) : Prop :=
  p.loc = p.body.head?.bind fun first => p.body.getLast?.map fun last => first.loc.through last.loc

/-- The text of a call in parentheses is what stands at its place. -/
def SubExpr.IsWritten (text : Text) (node : SubExpr) : Prop :=
  ∃ u v, text = u ++ (node.written ++ v) ∧
    node.loc.start = Source.position text u.byteLength ∧
    node.loc.stop = Source.position text (Text.byteLength (u ++ node.written))

namespace Grammar

variable {g : Grammar} {ls : List Lexeme}

/-! ## Statements side by side -/

/-- No tag is open behind the last of some tokens. -/
def Closed (ls : List Lexeme) : Prop := ∃ init x, ls = init ++ [x] ∧ x.token.staysInTag = false

theorem Closed.one {x : Lexeme} (hx : x.token.staysInTag = false) : Closed [x] := ⟨[], x, rfl, hx⟩

theorem Closed.behind {ls' : List Lexeme} (h : Closed ls') (ls : List Lexeme) :
    Closed (ls ++ ls') := by
  obtain ⟨init, x, rfl, hx⟩ := h
  exact ⟨ls ++ init, x, (List.append_assoc ..).symm, hx⟩

theorem Closed.cons (h : Closed ls) (l : Lexeme) : Closed (l :: ls) := h.behind [l]

theorem closed_of_writesClosing {tail : BlockClosing} (h : g.WritesClosing ls tail) :
    Closed ls := by
  cases h with
  | mk _ => exact ((Closed.one rfl).behind _).cons _

/-- No tag is open behind a statement. -/
theorem closed_of_writesStatement {s : Statement} (h : g.WritesStatement ls s) : Closed ls := by
  cases h with
  | content | comment => exact .one rfl
  | plain _ | unescaped _ | inclusion _ => exact ((Closed.one rfl).behind _).cons _
  | rawBlock _ _ _ => exact ((((Closed.one rfl).behind _).cons _).behind _).cons _
  | block _ _ _ htail _ => exact (((closed_of_writesClosing htail).behind _).behind _).behind _
  | inclusionBlock _ _ htail _ => exact ((closed_of_writesClosing htail).behind _).behind _

/-- Two statements that follow one another are written by tokens that do. -/
theorem exists_of_writesStatements {before after : List Statement} {s t : Statement}
    (h : g.WritesStatements ls (before ++ s :: t :: after)) :
    ∃ l first second l', ls = l ++ (first ++ (second ++ l')) ∧ g.WritesStatement first s ∧
      g.WritesStatement second t := by
  induction before generalizing ls with
  | nil =>
      cases h with
      | cons hs h =>
        cases h with
        | cons ht h => exact ⟨[], _, _, _, rfl, hs, ht⟩
  | cons _ before ih =>
      cases h with
      | cons _ h =>
        obtain ⟨l, first, second, l', rfl, hs, ht⟩ := ih h
        exact ⟨_ ++ l, first, second, l', (List.append_assoc ..).symm, hs, ht⟩

theorem writesStatements_of_writesContents {body : List Statement} (h : g.WritesContents ls body) :
    g.WritesStatements ls body := by
  induction h with
  | nil => exact .nil
  | cons _ ih => exact .cons .content ih

theorem seamless_of_writesStatements {before after : List Lexeme} {p : Program}
    (h : g.WritesStatements ls p.body) {cut inside : Bool}
    (hlaid : Laid cut inside 0 (before ++ (ls ++ after)) g.text) : p.Seamless g.text := by
  intro ahead s t behind hbody
  rw [hbody] at h
  obtain ⟨l, first, second, l', rfl, hs, ht⟩ := exists_of_writesStatements h
  obtain ⟨hne, hloc⟩ := place_of_writesStatement hs
  obtain ⟨hne', hloc'⟩ := place_of_writesStatement ht
  obtain ⟨init, x, rfl, hx⟩ := closed_of_writesStatement hs
  obtain ⟨y, rest, rfl⟩ := List.exists_cons_of_ne_nil hne'
  have hneighbours : before ++ (l ++ (init ++ [x] ++ (y :: rest ++ l')) ++ after) =
      (before ++ (l ++ init)) ++ x :: y :: (rest ++ (l' ++ after)) := by
    simp only [List.append_assoc, List.cons_append, List.nil_append]
  obtain ⟨u, gap, rest', htext, hstop, hstart, hgap⟩ := hlaid.neighbours hneighbours hx
  rw [Nat.zero_add] at hstop hstart
  refine ⟨u, gap, rest', htext, ?_, ?_, hgap⟩
  · rw [hloc, ← hstop]
    show Source.position g.text (covered (init ++ [x])).stop = _
    rw [covered_eq hne, List.getLast_append_singleton]
  · rw [hloc', ← hstart]
    rfl

/-- The statements of every program follow one another. -/
theorem seamless_of_writesNode {before after : List Lexeme} {p : Program}
    (h : g.WritesNode ls (.program p)) {cut inside : Bool}
    (hlaid : Laid cut inside 0 (before ++ (ls ++ after)) g.text) : p.Seamless g.text := by
  generalize hn : Node.program p = n at h
  cases h with
  | program h =>
      cases hn
      exact seamless_of_writesStatements h hlaid
  | contents h =>
      cases hn
      exact seamless_of_writesStatements (writesStatements_of_writesContents h) hlaid
  | chained h =>
      cases hn
      intro before s t after hbody
      have hlength := congrArg List.length hbody
      simp only [List.length_append, List.length_cons, List.length_nil] at hlength
      omega
  | expr | hash | hashPair | statement | link => cases hn

/-! ## Programs and their statements -/

theorem spansBody_program (body : List Statement) (names : Option (List Text)) :
    Program.SpansBody { Builder.program body none with blockParams := names } := by
  cases body with
  | nil => rfl
  | cons s rest => cases rest <;> rfl

/-- A section behind an else tag spans its statements unless it wraps a link. -/
theorem spansBody_of_writesInverse {closing : Strip} {chains : Bool} {inverse : Option Program}
    (h : g.WritesInverse closing chains ls inverse) :
    ∀ p ∈ inverse, p.chained = false → p.SpansBody := by
  cases h with
  | none => nofun
  | plain _ =>
      rintro p ⟨⟩ -
      exact spansBody_program _ none
  | link _ _ =>
      rintro p ⟨⟩
      nofun

theorem spansBody_of_block {chains inverted : Bool} {head : BlockOpening} {body : List Statement}
    {other : Option ElseSection} {closing : Option BlockClosing} {x : Extent} {block : Statement}
    (hother : g.WritesSection chains ls other)
    (h : g.builder.block head (Builder.program body none) other closing inverted x = .ok block) :
    ∀ p ∈ (Node.statement block).sections, p.chained = false → p.SpansBody := by
  obtain ⟨inverse, hinverse, -, hsections⟩ := sections_of_block hother h
  intro p hp hchained
  rcases List.mem_cons.mp (hsections.mem_iff.mpr hp) with rfl | hp
  · exact spansBody_program body head.blockParams
  · exact spansBody_of_writesInverse hinverse p (Option.mem_toList.mp hp) hchained

theorem spansBody_of_writesStatement {s : Statement} (h : g.WritesStatement ls s) :
    ∀ p ∈ (Node.statement s).sections, p.chained = false →
      (∀ span, ls.head? ≠ some ⟨.rawOpener, span⟩) → p.SpansBody := by
  cases h with
  | content | comment | inclusion => nofun
  | plain h | unescaped h =>
      obtain ⟨escaped, hs | hs⟩ := g.builder.exists_of_mustache _ _ _ _ <;> rw [hs] <;> nofun
  | rawBlock hcall hbody hblock => exact fun _ _ _ hraw => absurd rfl (hraw _)
  | block hhead hbody hother htail hblock =>
      exact fun p hp hchained _ => spansBody_of_block hother hblock p hp hchained
  | inclusionBlock hhead hbody htail hblock =>
      obtain rfl := Builder.eq_of_inclusionBlock hblock
      intro p hp _ _
      obtain rfl := List.mem_singleton.mp hp
      exact spansBody_program _ none

/-- A section spans its statements unless it wraps a link or is the body of a raw block. -/
theorem spansBody_of_mem_sections {n : Node} (h : g.WritesNode ls n) :
    ∀ p ∈ n.sections, p.chained = false → (∀ span, ls.head? ≠ some ⟨.rawOpener, span⟩) →
      p.SpansBody := by
  cases h with
  | expr | hash | hashPair | program | contents | chained => nofun
  | statement h => exact spansBody_of_writesStatement h
  | link h =>
      cases h with
      | mk _ _ hother hblock _ =>
          exact fun p hp hchained _ => spansBody_of_block hother hblock p hp hchained

/-! ## Calls in parentheses -/

/-- Some tokens that follow one another cover a slice of the text. -/
theorem exists_slice_of_laid {before own after : List Lexeme} {text : Text} {cut inside : Bool}
    (hlaid : Laid cut inside 0 (before ++ (own ++ after)) text) (hne : own ≠ []) :
    ∃ u w v, text = u ++ (w ++ v) ∧ (covered own).start = u.byteLength ∧
      (covered own).stop = Text.byteLength (u ++ w) ∧
      text.slice (covered own).start (covered own).stop = w := by
  have hmem {x : Lexeme} (hx : x ∈ own) : x ∈ before ++ (own ++ after) :=
    List.mem_append_right before (List.mem_append_left after hx)
  have hown : InSequence own := hlaid.inSequence.right.left
  obtain ⟨u, w, v, htext, -, hspan, -⟩ := hlaid.exists_slice _ (hmem (List.head_mem hne))
  obtain ⟨u', w', v', htext', -, hspan', -⟩ := hlaid.exists_slice _ (hmem (List.getLast_mem hne))
  have hle : (covered own).start ≤ (covered own).stop :=
    have hhead := hown.covered_of_mem (List.head_mem hne)
    Nat.le_trans hhead.1 (Nat.le_trans (hown.forwards _ (List.head_mem hne)) hhead.2)
  rw [covered_eq hne, hspan, hspan'] at hle ⊢
  simp only [Nat.zero_add] at hle ⊢
  rw [← List.append_assoc] at htext'
  obtain ⟨m, hm, hcut, hslice⟩ := Text.exists_slice htext htext' hle
  exact ⟨u, m, v', hm, rfl, congrArg Text.byteLength hcut, hslice⟩

/-- A call in parentheses is written as the source has it. -/
theorem isWritten_of_writesExpr (hg : g.Literal) {before after : List Lexeme} {node : SubExpr}
    (h : g.WritesExpr ls (.sub node)) {cut inside : Bool}
    (hlaid : Laid cut inside 0 (before ++ (ls ++ after)) g.text) : node.IsWritten g.text := by
  generalize he : Expr.sub node = e at h
  cases h with
  | sub h =>
      cases he
      obtain ⟨u, w, v, htext, hstart, hstop, hslice⟩ := exists_slice_of_laid hlaid nofun
      refine ⟨u, v, ?_, congrArg (Source.position g.text) hstart, ?_⟩
      · show g.text = u ++ (Text.slice .. ++ v)
        rw [hslice]
        exact htext
      · show Source.position g.text (covered _).stop = _
        rw [hstop, show (g.subOf _ _).written = w from hslice]
  | hash h _ =>
      rw [hashLiteral_of_literal hg] at he
      cases he
  | array h =>
      rw [array_of_literal hg] at he
      cases he
  | path | data | subPath | string | number | boolean | undefined | null => cases he

end Grammar

/-! ## Templates -/

/-- **Places are exact and nested.**  In the tree of an accepted template, each node but the
programs lies where its tokens are, from the start of the first to the end of the last.  The
nodes inside it lie within its place and apart from each other, those of its tag in order.  Its
sections lie where their statements are, unless they wrap a link of an else chain or are the
body of a raw block, and so does the whole template.  The statements of each program follow one
another, and a program without a place is empty.  A call in parentheses is written as the source
has it. -/
theorem located_of_parseRaw {o : Options} {text : Text} {p : Program} (ho : o.Literal)
    (h : parseRaw o text = .ok p) :
    (∀ n : Node, n.Within (.program p) → n.program? = none →
      ∃ before own after first last,
        (tokenize o.brackets.isList text).lexemes = before ++ (own ++ after) ∧
        (o.grammar text).WritesNode own n ∧ own.head? = some first ∧ own.getLast? = some last ∧
        n.loc? = some ⟨o.sourceName, Source.position text first.span.start,
          Source.position text last.span.stop⟩ ∧
        n.Nested ∧
        ∀ q ∈ n.sections, q.chained = false → first.token ≠ .rawOpener → q.SpansBody) ∧
    p.SpansBody ∧
    (∀ q : Program, (Node.program q).Within (.program p) →
      q.Seamless text ∧ (q.loc = none → q.body = [])) ∧
    ∀ node : SubExpr, (Node.expr (.sub node)).Within (.program p) → node.IsWritten text := by
  have hlaid := laid_tokenize o.brackets.isList text
  have hg := ho.grammar text
  refine ⟨fun n hn hprogram => ?_, ?_, fun q hq => ?_, fun node hnode => ?_⟩
  · obtain ⟨before, own, after, hlexemes, hown⟩ := exists_of_parseRaw ho h hn
    obtain ⟨hne, hloc⟩ := Grammar.place_of_writesNode hg hown hprogram
    rw [hlexemes] at hlaid
    refine ⟨before, own, after, own.head hne, own.getLast hne, hlexemes, hown,
      List.head?_eq_some_head hne, List.getLast?_eq_some_getLast hne, ?_,
      Grammar.nested_of_writesNode hg hown hprogram hlaid.inSequence.right.left,
      fun q hq hchained hraw => ?_⟩
    · rw [hloc, Grammar.place, Grammar.extentOf, covered_eq hne]
      rfl
    · refine Grammar.spansBody_of_mem_sections hown q hq hchained fun span hhead => hraw ?_
      rw [List.head?_eq_some_head hne] at hhead
      rw [Option.some.inj hhead]
  · cases writesProgram_of_parseRaw h
    exact Grammar.spansBody_program _ none
  · obtain ⟨before, own, after, hlexemes, hown⟩ := exists_of_parseRaw ho h hq
    rw [hlexemes] at hlaid
    exact ⟨Grammar.seamless_of_writesNode hown hlaid, Grammar.body_of_writesNode hown⟩
  · obtain ⟨before, own, after, hlexemes, hown⟩ := exists_of_parseRaw ho h hnode
    rw [hlexemes] at hlaid
    cases hown with
    | expr hown => exact Grammar.isWritten_of_writesExpr hg hown hlaid

/-- The template `\{{a}}{{#b (c d) e=f}}g{{/b}}`, whose first tag is escaped. -/
def escapedTemplate : Text :=
  "\\\x7b\x7ba\x7d\x7d\x7b\x7b#b (c d) e=f\x7d\x7dg\x7b\x7b/b\x7d\x7d".toList

/-- Its statements follow one another, and the call in it is written as the source has it. -/
theorem located_escapedTemplate :
    Options.Literal {} ∧ ∃ p, parseRaw {} escapedTemplate = .ok p ∧
      p.Seamless escapedTemplate ∧ p.SpansBody ∧
      ∀ node : SubExpr, (Node.expr (.sub node)).Within (.program p) →
        node.IsWritten escapedTemplate := by
  have hliteral : Options.Literal {} := ⟨nofun, nofun⟩
  have hok : (parseRaw {} escapedTemplate).toBool = true := by cbv
  refine ⟨hliteral, ?_⟩
  cases hp : parseRaw {} escapedTemplate with
  | error e =>
      rw [hp] at hok
      cases hok
  | ok p =>
      obtain ⟨-, hspans, hprograms, hcalls⟩ := located_of_parseRaw hliteral hp
      exact ⟨p, rfl, (hprograms p .refl).1, hspans, hcalls⟩

end Stache
