import Stache.Proofs.Grammar.Brackets
import Stache.Proofs.Grammar.Parentheses
import Stache.Proofs.Grammar.Splits

/-!
# Paths that go on from a call

Behind a call in parentheses a separator makes a path of it.  The path has the call at its head
and the names behind it as its tail, as far as names go on (`path_of_parseRaw`).

The separator behind the call belongs to no segment, so it does not show in the path: the text of
the path has a dot in its place.  The other separators are kept.
-/

namespace Stache

/-! ## Steps of a path -/

/-- A separator with the name behind it. -/
structure PathStep where
  separator : Separator
  name : Text
deriving DecidableEq, Repr

namespace PathStep

/-- The tokens of a step. -/
def tokens (x : PathStep) : List Token := [.separator x.separator, .ident x.name]

/-- The text of a step. -/
def text (x : PathStep) : Text := x.separator.text ++ x.name

/-- What a path keeps of a step.  A private member has `#` in front. -/
def part (x : PathStep) : Text := if x.separator = .member then '#' :: x.name else x.name

/-- The segment that the grammar finds. -/
def toSegment (x : PathStep) : Segment := .ofIdent x.name (some x.separator)

/-- The name stands in no brackets and moves through no scopes. -/
def Plain (x : PathStep) : Prop :=
  x.name.head? ≠ some '[' ∧ x.name ∉ [['.', '.'], ['.'], ['t', 'h', 'i', 's']]

instance (x : PathStep) : Decidable x.Plain :=
  decidable_of_iff (x.name.head? ≠ some '[' ∧ x.name ≠ ['.', '.'] ∧ x.name ≠ ['.'] ∧
    x.name ≠ ['t', 'h', 'i', 's']) (by simp [Plain])

variable {x : PathStep} {steps : List PathStep} {kind : Option Separator}

theorem Plain.part_ofIdent (hx : x.Plain) : (Segment.ofIdent x.name kind).part = x.name := by
  have hopen : Text.after? ['['] x.name = none := by
    cases hname : x.name with
    | nil => rfl
    | cons c r =>
        have hc : c ≠ '[' := fun hc => hx.1 (by rw [hname, hc]; rfl)
        simp [Text.after?, hc.symm]
  rw [Segment.ofIdent, unbracket, hopen]
  rfl

theorem Plain.isOperator_ofIdent (hx : x.Plain) :
    (Segment.ofIdent x.name kind).isOperator = false := by
  have hname := hx.2
  simp only [List.mem_cons, List.not_mem_nil, or_false, not_or] at hname
  rw [Segment.isOperator, hx.part_ofIdent]
  simp [hname]

theorem Plain.name_toSegment (hx : x.Plain) : x.toSegment.name = x.part := by
  rw [Segment.name, toSegment, hx.part_ofIdent, part]
  simp only [Segment.ofIdent, Option.some.injEq]

theorem Plain.text_toSegment (hx : x.Plain) : x.toSegment.text = x.text := by
  rw [Segment.text, toSegment, hx.part_ofIdent]
  rfl

end PathStep

namespace Builder

variable {b : Builder} {sub : SubExpr} {first : PathStep} {more : List PathStep} {x : Extent}
  {p : Path}

/-- What a path has that goes on from a call. -/
theorem exists_of_callPath (hfirst : first.Plain) (hmore : ∀ x ∈ more, x.Plain)
    (h : b.path false (some sub) (.ofIdent first.name none :: more.map PathStep.toSegment) x =
      .ok p) :
    p.loc = b.locate x ∧ p.head = some (.sub sub) ∧ p.data = false ∧
      p.tail = first.name :: more.map PathStep.part ∧
      p.written = sub.written ++ '.' :: (first.name ++ more.flatMap PathStep.text) := by
  obtain ⟨q, hq, rfl⟩ := exists_of_path h
  have hnames : ∀ s ∈ Segment.ofIdent first.name none :: more.map PathStep.toSegment,
      s.isOperator = false :=
    List.forall_mem_cons.mpr ⟨hfirst.isOperator_ofIdent,
      List.forall_mem_map.mpr fun x hx => (hmore x hx).isOperator_ofIdent⟩
  cases (PathPrefix.foldlM_add_names hnames _).symm.trans hq
  refine ⟨rfl, rfl, rfl, ?_, ?_⟩
  · have hrest : (more.map PathStep.toSegment).map Segment.name = more.map PathStep.part := by
      rw [List.map_map]
      exact List.map_congr_left fun x hx => (hmore x hx).name_toSegment
    show (Segment.ofIdent first.name none).name :: (more.map _).map _ = _
    rw [hrest, Segment.name, hfirst.part_ofIdent]
    rfl
  · have hrest : (more.map PathStep.toSegment).flatMap Segment.text =
        more.flatMap PathStep.text := by
      rw [List.flatMap_map]
      exact List.flatMap_congr fun x hx => (hmore x hx).text_toSegment
    show sub.written ++ ['.'] ++ (Segment.text _ ++ (more.map _).flatMap _) = _
    rw [hrest, Segment.text, hfirst.part_ofIdent, List.append_assoc]
    rfl

end Builder

/-! ## The text of the steps -/

/-- Nothing stands between the two tokens. -/
def Lexeme.Touches (l l' : Lexeme) : Prop := l.span.stop = l'.span.start

instance (l l' : Lexeme) : Decidable (l.Touches l') := by unfold Lexeme.Touches; infer_instance

theorem PathStep.Plain.eq_of_spells {x : PathStep} {w v : Text} (hx : x.Plain)
    (h : (Token.ident x.name).Spells w v) : w = x.name := by
  rcases h with hw | ⟨_, rfl, hname⟩
  · exact hw
  · refine absurd ?_ hx.1
    rw [hname]
    rfl

namespace InTag

open Grammar

variable {square after : Bool} {cs v : Text} {ls : List Lexeme} {l x : Lexeme}
  {steps : List PathStep}

theorem exists_of_touches (h : InTag square v after l.span.stop cs (x :: ls))
    (hx : l.Touches x) : ∃ w cs' after', cs = w ++ cs' ∧ x.token.Spells w (cs' ++ v) ∧
      InTag square v after' x.span.stop cs' ls := by
  have hls : InTag square v after l.span.stop cs ([x] ++ ls) := h
  obtain ⟨w, cs', after', rfl, hfirst, hmore⟩ := hls.append
  have hstop : x.span.stop = _ := hfirst.stop_eq (@rfl _ l.span.stop)
  obtain ⟨w, _, rfl, hspells, hnil⟩ := hfirst.exists_spells hx.symm
  cases hnil
  rw [← hstop] at hmore
  exact ⟨_, cs', after', rfl, by rwa [List.append_nil], hmore⟩

/-- Steps whose tokens touch are read off their text. -/
theorem eq_of_steps (h : InTag square v after l.span.stop cs ls)
    (hls : tokensOf ls = steps.flatMap PathStep.tokens) (hsteps : ∀ x ∈ steps, x.Plain)
    (htouch : (l :: ls).IsChain Lexeme.Touches) : cs = steps.flatMap PathStep.text := by
  induction steps generalizing after l cs ls with
  | nil =>
      obtain rfl : ls = [] := List.map_eq_nil_iff.mp hls
      cases h
      rfl
  | cons step steps ih =>
      obtain ⟨hstep, hsteps⟩ := List.forall_mem_cons.mp hsteps
      obtain ⟨_, _, rfl, hname⟩ := exists_of_tokensOf hls
      obtain ⟨_, _, rfl, hmore⟩ := exists_of_tokensOf hname
      obtain ⟨hfirst, htouch⟩ := List.isChain_cons_cons.mp htouch
      obtain ⟨hsecond, htouch⟩ := List.isChain_cons_cons.mp htouch
      obtain ⟨w, cs, _, rfl, hkind, hbehind⟩ := h.exists_of_touches hfirst
      obtain ⟨w', cs, _, rfl, hident, hrest⟩ := hbehind.exists_of_touches hsecond
      have hw : w = step.separator.text := hkind
      rw [hw, hstep.eq_of_spells hident, ih hrest hmore hsteps htouch, List.flatMap_cons,
        PathStep.text, List.append_assoc]

end InTag

/-! ## The tokens of a path -/

namespace Grammar

variable {g : Grammar} {ls ls' rest rest' own inside tail after : List Lexeme} {s s' : Span}
  {first : PathStep} {more steps : List PathStep}

theorem writesTail_of_steps (h : tokensOf ls = steps.flatMap PathStep.tokens) :
    WritesTail ls (steps.map PathStep.toSegment) := by
  induction steps generalizing ls with
  | nil =>
      obtain rfl : ls = [] := List.map_eq_nil_iff.mp h
      exact .nil
  | cons x steps ih =>
      obtain ⟨_, _, rfl, hname⟩ := exists_of_tokensOf h
      obtain ⟨_, _, rfl, hmore⟩ := exists_of_tokensOf hname
      exact .cons (ih hmore)

/-- Steps end where no separator follows. -/
theorem split_tail {segments segments' : List Segment} (h : WritesTail ls segments)
    (h' : WritesTail ls' segments') (hall : ls ++ rest = ls' ++ rest')
    (hrest : Fronts (fun t => !t.isSeparator) (tokensOf rest))
    (hrest' : Fronts (fun t => !t.isSeparator) (tokensOf rest')) :
    ls = ls' ∧ segments = segments' := by
  induction h generalizing ls' segments' with
  | nil =>
      cases h' with
      | nil => exact ⟨rfl, rfl⟩
      | cons _ =>
          obtain rfl : rest = _ := hall
          cases hrest.head
  | cons _ ih =>
      cases h' with
      | nil =>
          obtain rfl : _ = rest' := hall
          cases hrest'.head
      | cons h' =>
          obtain ⟨⟨⟩, hname⟩ := List.cons.inj hall
          obtain ⟨⟨⟩, hmore⟩ := List.cons.inj hname
          obtain ⟨rfl, rfl⟩ := ih h' hmore
          exact ⟨rfl, rfl⟩

/-- A call in parentheses ends in one place. -/
theorem split_parens {s₁ s₂ : Span} {called : Call} (h : g.WritesCall ls called)
    (hcall : Derives .call (tokensOf inside))
    (hall : parens s₁ ls s₂ ++ rest = parens s inside s' ++ rest') :
    parens s₁ ls s₂ = parens s inside s' ∧ ls = inside ∧ rest = rest' := by
  obtain ⟨⟨⟩, hmore⟩ := List.cons.inj hall
  simp only [List.append_eq, List.append_assoc, List.singleton_append] at hmore
  obtain ⟨rfl, hclose⟩ := split_call h hcall hmore (.cons rfl) (.cons rfl)
  obtain ⟨⟨⟩, rfl⟩ := List.cons.inj hclose
  exact ⟨rfl, rfl, rfl⟩

/-- A call in parentheses with steps behind it is the whole of the path that starts there. -/
theorem exists_callPath {e : Expr} (h : g.WritesExpr own e)
    (hall : own ++ rest = parens s inside s' ++ (tail ++ after))
    (hrest : Fronts Token.endsExpr (tokensOf rest)) (hcall : Derives .call (tokensOf inside))
    (htail : tokensOf tail = (first :: more).flatMap PathStep.tokens)
    (hafter : Fronts (fun t => !t.isSeparator) (tokensOf after)) :
    ∃ called p, g.WritesCall inside called ∧ own = parens s inside s' ++ tail ∧ e = .path p ∧
      g.builder.path false (some (g.subOf called (parens s inside s')))
        (.ofIdent first.name none :: more.map PathStep.toSegment) (g.extentOf own) = .ok p := by
  have hsteps := writesTail_of_steps htail
  obtain ⟨s₁, ls₁, rfl, -⟩ := exists_of_tokensOf htail
  cases h with
  | path h _ =>
      cases h
      cases hall
  | hash h hne => exact (not_pairs_of_call h hne hcall (congrArg tokensOf hall).symm).elim
  | sub h =>
      obtain ⟨-, -, rfl⟩ := split_parens h hcall hall
      cases hrest.head
  | @subPath _ _ _ kind _ _ called _ p h hmore hpath =>
      rw [List.append_assoc] at hall
      obtain ⟨hparens, rfl, hbehind⟩ := split_parens h hcall hall
      rw [hparens] at hpath ⊢
      cases hmore with
      | mk hmore =>
          have hends : Fronts (fun t => !t.isSeparator) (tokensOf rest) := by
            intro t ht
            have hend := hrest t ht
            cases t <;> first | rfl | cases hend
          obtain ⟨htokens, hsegments⟩ :=
            split_tail (.cons hmore) hsteps hbehind hends hafter
          rw [htokens] at hpath ⊢
          obtain ⟨hname, rfl⟩ := List.cons.inj hsegments
          have hidents := (Segment.mk.inj hname).2.1
          rw [hidents] at hpath
          exact ⟨called, p, h, rfl, rfl, hpath⟩
  | _ => cases hall

/-! ## The text of a path -/

/-- A call in parentheses and the steps behind it, in the text of the template. -/
theorem slice_callPath {square : Bool} {before : List Lexeme} {called : Call}
    (hls : (tokenize square g.text).lexemes = before ++ (parens s inside s' ++ tail ++ after))
    (hcall : g.WritesCall inside called) (htail : tokensOf tail = steps.flatMap PathStep.tokens)
    (hsteps : ∀ x ∈ steps, x.Plain)
    (htouch : (⟨.parenClose, s'⟩ :: tail).IsChain Lexeme.Touches) :
    g.text.slice (covered (parens s inside s' ++ tail)).start
        (covered (parens s inside s' ++ tail)).stop =
      (g.subOf called (parens s inside s')).written ++ steps.flatMap PathStep.text := by
  have hinner : Inner (parens s inside s' ++ tail) :=
    (inner_parens (inner_of_writesCall hcall)).append
      (inner_of_writesTail (writesTail_of_steps htail))
  have hne : parens s inside s' ++ tail ≠ [] := List.cons_ne_nil _ _
  obtain ⟨u, w, v, flag, htext, hin, hcovered⟩ := exists_inTag hne hinner hls
  obtain ⟨w, w', flag', rfl, hparens, hmore⟩ := hin.append
  have hstart : s.start = u.byteLength := congrArg Span.start hcovered
  have hstop : s'.stop = u.byteLength + w.byteLength := by
    have hend := hparens.stop_eq (@rfl _ (Span.stop ⟨0, u.byteLength⟩))
    rwa [parens, endOf, endOf_append] at hend
  have hsub : (g.subOf called (parens s inside s')).written = w := by
    show g.text.slice s.start (endOf s (inside ++ [⟨.parenClose, s'⟩])).stop = w
    rw [endOf_append, endOf, endOf, hstart, hstop, ← Text.byteLength_append, htext,
      List.append_assoc]
    exact Text.slice_append u w (w' ++ v)
  rw [← hstop] at hmore
  rw [hcovered, htext, Text.slice_append, hsub,
    ← hmore.eq_of_steps (l := ⟨.parenClose, s'⟩) htail hsteps htouch]

end Grammar

/-! ## Templates -/

open Grammar

variable {o : Options} {text : Text} {s s' : Span} {inside tail : List Lexeme} {first : PathStep}
  {more : List PathStep} {tree : Program}

/-- In the template stands a call in parentheses with plain steps behind it, without any space
between them, and no other step follows. -/
structure CallWithSteps (o : Options) (text : Text) (s : Span) (inside : List Lexeme) (s' : Span)
    (tail : List Lexeme) (first : PathStep) (more : List PathStep) : Prop where
  call : Derives .call (tokensOf inside)
  steps : tokensOf tail = (first :: more).flatMap PathStep.tokens
  plain : ∀ x ∈ first :: more, x.Plain
  touching : (⟨.parenClose, s'⟩ :: tail).IsChain Lexeme.Touches
  stands : ∃ before after, (tokenize o.brackets.isList text).lexemes =
      before ++ (parens s inside s' ++ tail ++ after) ∧
    Fronts (fun t => !t.isSeparator) (tokensOf after)

/-- The tokens write a path that goes on from a call with some steps.  Its names and its text follow
the separators but for the first one, which the path does not keep. -/
structure Grammar.GoesOn (g : Grammar) (own : List Lexeme) (sub : SubExpr) (first : PathStep)
    (more : List PathStep) (p : Path) : Prop where
  writes : g.WritesExpr own (.path p)
  loc : p.loc = g.builder.locate (g.extentOf own)
  head : p.head = some (.sub sub)
  data : p.data = false
  tail : ∃ name ∈ [first.name, '#' :: first.name], p.tail = name :: more.map PathStep.part
  kept : first.separator ≠ .member → p.tail = (first :: more).map PathStep.part ∧
    p.written = sub.written ++ '.' :: (first.name ++ more.flatMap PathStep.text)
  source : g.text.slice (covered own).start (covered own).stop =
    sub.written ++ (first :: more).flatMap PathStep.text
  written : first.separator = .dot →
    p.written = g.text.slice (covered own).start (covered own).stop

/-- **A call with steps behind it is read as one path**, wherever it stands in a template that is
accepted.  The path has the call at its head and the names as its tail, with `#` in front of those
of private members.  After a dot or a slash it has no `#` in front of the first name, and its text
is that of the template with a dot for the first separator. -/
theorem goesOn_of_parseRaw (h : parseRaw o text = .ok tree)
    (hsteps : CallWithSteps o text s inside s' tail first more) :
    ∃ called p, (o.grammar text).WritesCall inside called ∧
      (o.grammar text).GoesOn (parens s inside s' ++ tail)
        ((o.grammar text).subOf called (parens s inside s')) first more p ∧
      (o.grammar text).Kept (tokenize o.brackets.isList text).lexemes [.program tree]
        (.path p) := by
  obtain ⟨hcall, htail, hplain, htouch, before, after, hls, hafter⟩ := hsteps
  have hopen : (tokenize o.brackets.isList text).lexemes =
      before ++ ⟨.parenOpen, s⟩ :: (inside ++ [⟨.parenClose, s'⟩] ++ tail ++ after) := hls
  obtain ⟨own, rest, e, hall, he, hrest, hkept⟩ :=
    exists_of_parenOpen (writesProgram_of_parseRaw h) hopen
  have hall : own ++ rest = parens s inside s' ++ (tail ++ after) := by
    rw [← List.append_assoc]
    exact hall.symm
  obtain ⟨called, p, hcalled, rfl, rfl, hpath⟩ :=
    exists_callPath he hall hrest hcall htail hafter
  obtain ⟨hfirst, hmore⟩ := List.forall_mem_cons.mp hplain
  obtain ⟨hloc, hhead, hdata, hnames, hwritten⟩ := Builder.exists_of_callPath hfirst hmore hpath
  have hsource := slice_callPath (g := o.grammar text) hls hcalled htail hplain htouch
  refine ⟨called, p, hcalled,
    ⟨he, hloc, hhead, hdata, ⟨_, List.mem_cons_self, hnames⟩, ?_, hsource, ?_⟩, hkept⟩
  · intro hkind
    rw [List.map_cons, PathStep.part, if_neg hkind]
    exact ⟨hnames, hwritten⟩
  · intro hkind
    rw [hsource, hwritten, List.flatMap_cons, PathStep.text, hkind]
    rfl

/-- The template `{{foo (a).b.#c}}`. -/
def dottedCall : Text := "\x7b\x7bfoo (a).b.#c\x7d\x7d".toList

/-- The template `{{foo (a)/b}}`. -/
def slashedCall : Text := "\x7b\x7bfoo (a)/b\x7d\x7d".toList

/-- The template `{{foo (a).#b}}`. -/
def privateCall : Text := "\x7b\x7bfoo (a).#b\x7d\x7d".toList

/-- Each of the three templates has the same call in it, from its sixth byte on. -/
theorem callWithSteps_of_tokenize {ls : List Lexeme} {last : Span}
    (hls : (tokenize false text).lexemes =
      [⟨.opener .plain "\x7b\x7b".toList, ⟨0, 2⟩⟩, ⟨.ident "foo".toList, ⟨2, 5⟩⟩] ++
        (parens ⟨6, 7⟩ [⟨.ident ['a'], ⟨7, 8⟩⟩] ⟨8, 9⟩ ++ ls ++
          [⟨.closer "\x7d\x7d".toList, last⟩]))
    (hsteps : tokensOf ls = (first :: more).flatMap PathStep.tokens)
    (hplain : ∀ x ∈ first :: more, x.Plain)
    (htouch : (⟨.parenClose, ⟨8, 9⟩⟩ :: ls).IsChain Lexeme.Touches) :
    CallWithSteps {} text ⟨6, 7⟩ [⟨.ident ['a'], ⟨7, 8⟩⟩] ⟨8, 9⟩ ls first more :=
  ⟨.call (.path (.segments .tailNil)) .exprsNil .pairsNil, hsteps, hplain, htouch, _, _, hls,
    .cons rfl⟩

/-- The path of the first template has its own text. -/
theorem goesOn_dottedCall : ∃ tree, parseRaw {} dottedCall = .ok tree ∧ ∃ tail,
    CallWithSteps {} dottedCall ⟨6, 7⟩ [⟨.ident ['a'], ⟨7, 8⟩⟩] ⟨8, 9⟩ tail ⟨.dot, ['b']⟩
        [⟨.member, ['c']⟩] ∧
      ∃ p, p.tail = [['b'], ['#', 'c']] ∧ p.written = "(a).b.#c".toList ∧
        (Options.grammar {} dottedCall).Kept (tokenize false dottedCall).lexemes [.program tree]
          (.path p) := by
  obtain ⟨tree, htree⟩ : ∃ tree, parseRaw {} dottedCall = .ok tree := ⟨_, by cbv⟩
  have hsteps : CallWithSteps {} dottedCall ⟨6, 7⟩ [⟨.ident ['a'], ⟨7, 8⟩⟩] ⟨8, 9⟩
      [⟨.separator .dot, ⟨9, 10⟩⟩, ⟨.ident ['b'], ⟨10, 11⟩⟩, ⟨.separator .member, ⟨11, 13⟩⟩,
        ⟨.ident ['c'], ⟨13, 14⟩⟩] ⟨.dot, ['b']⟩ [⟨.member, ['c']⟩] :=
    callWithSteps_of_tokenize (by cbv) rfl (by decide) (by decide)
  obtain ⟨called, p, -, hp, hkept⟩ := goesOn_of_parseRaw htree hsteps
  refine ⟨tree, htree, _, hsteps, p, (hp.kept (by decide)).1, ?_, hkept⟩
  exact (hp.written rfl).trans (by decide)

/-- In the tree of the template `p` is the path of a call with steps behind it, made of the
tokens `own`. -/
def IsCallPath (text : Text) (own : List Lexeme) (steps : List PathStep) (p : Path) : Prop :=
  ∃ tree s inside s' tail first more, parseRaw {} text = .ok tree ∧
    CallWithSteps {} text s inside s' tail first more ∧ own = parens s inside s' ++ tail ∧
    steps = first :: more ∧ (Node.expr (.path p)).Within (.program tree) ∧
    p.loc = Source.location text none (covered own)

theorem isCallPath_of_params {node : Mustache} {p : Path} (htree : parseRaw {} text = .ok tree)
    (hbody : tree.body = [.mustache node]) (hparams : node.call.params = [.path p])
    (hsteps : CallWithSteps {} text s inside s' tail first more)
    (hloc : p.loc = Source.location text none (covered (parens s inside s' ++ tail))) :
    IsCallPath text (parens s inside s' ++ tail) (first :: more) p := by
  have hnode : Node.statement (.mustache node) ∈ (Node.program tree).ordered := by
    simp [Node.ordered, Program.nodes, hbody]
  have hpath : Node.expr (.path p) ∈ (Node.statement (.mustache node)).ordered := by
    simp [Node.ordered, Call.nodes, hparams]
  exact ⟨tree, s, inside, s', tail, first, more, htree, hsteps, rfl, rfl,
    (Node.Within.of_ordered hpath).trans (.of_ordered hnode), hloc⟩

theorem exists_slashedCall : ∃ own p,
    IsCallPath slashedCall own [⟨.slash, ['b']⟩] p ∧ p.written = "(a).b".toList ∧
      slashedCall.slice (covered own).start (covered own).stop = "(a)/b".toList := by
  obtain ⟨tree, node, p, htree, hbody, hparams, hloc, hwritten⟩ :
      ∃ tree node p, parseRaw {} slashedCall = .ok tree ∧ tree.body = [.mustache node] ∧
        node.call.params = [.path p] ∧ p.loc = ⟨none, ⟨1, 6⟩, ⟨1, 11⟩⟩ ∧
        p.written = "(a).b".toList :=
    ⟨_, _, _, by cbv, by rfl, by rfl, by rfl, by rfl⟩
  have hsteps : CallWithSteps {} slashedCall ⟨6, 7⟩ [⟨.ident ['a'], ⟨7, 8⟩⟩] ⟨8, 9⟩
      [⟨.separator .slash, ⟨9, 10⟩⟩, ⟨.ident ['b'], ⟨10, 11⟩⟩] ⟨.slash, ['b']⟩ [] :=
    callWithSteps_of_tokenize (by cbv) rfl (by decide) (by decide)
  exact ⟨_, p, isCallPath_of_params htree hbody hparams hsteps (hloc.trans (by decide)), hwritten,
    by decide⟩

theorem exists_privateCall : ∃ own p,
    IsCallPath privateCall own [⟨.member, ['b']⟩] p ∧ p.tail = [['b']] := by
  obtain ⟨tree, node, p, htree, hbody, hparams, hloc, htail⟩ :
      ∃ tree node p, parseRaw {} privateCall = .ok tree ∧ tree.body = [.mustache node] ∧
        node.call.params = [.path p] ∧ p.loc = ⟨none, ⟨1, 6⟩, ⟨1, 12⟩⟩ ∧ p.tail = [['b']] :=
    ⟨_, _, _, by cbv, by rfl, by rfl, by rfl, by rfl⟩
  have hsteps : CallWithSteps {} privateCall ⟨6, 7⟩ [⟨.ident ['a'], ⟨7, 8⟩⟩] ⟨8, 9⟩
      [⟨.separator .member, ⟨9, 11⟩⟩, ⟨.ident ['b'], ⟨11, 12⟩⟩] ⟨.member, ['b']⟩ [] :=
    callWithSteps_of_tokenize (by cbv) rfl (by decide) (by decide)
  exact ⟨_, p, isCallPath_of_params htree hbody hparams hsteps (hloc.trans (by decide)), htail⟩

/-- The path of the second template has a dot in its text where the template has a slash, and that
of the third one is read without the marker of its private member. -/
theorem callPath_ne :
    (¬∀ text own steps p, IsCallPath text own steps p →
      p.written = text.slice (covered own).start (covered own).stop) ∧
    ¬∀ text own steps p, IsCallPath text own steps p → p.tail = steps.map PathStep.part := by
  constructor
  · intro hall
    obtain ⟨own, p, hp, hwritten, hsource⟩ := exists_slashedCall
    have heq := hall _ _ _ _ hp
    rw [hwritten, hsource] at heq
    exact absurd heq (by decide)
  · intro hall
    obtain ⟨own, p, hp, htail⟩ := exists_privateCall
    have heq := hall _ _ _ _ hp
    rw [htail] at heq
    exact absurd heq (by decide)

end Stache
