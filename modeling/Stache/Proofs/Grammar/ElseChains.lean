import Stache.Proofs.Grammar.Fragments
import Stache.Proofs.Grammar.Splits

/-!
# Else chains

An else chain is another way to write nested blocks (`parse_chain_iff_nested`): instead of
`{{#a}}A{{else b}}B{{else}}C{{/a}}` one can write
`{{#a}}A{{else}}{{#b}}B{{else}}C{{/b}}{{/a}}`.  Either template is accepted if and only if the
other is, and the trees are the same up to places, markers and the mark of a chain.

The grammar reads a chain with a production of its own, in which a link has no closing tag.  The
proof goes along the chain, from its end to its front: what the rest of the chain writes and what
the nested blocks in its place write agree, so what is around them does
(`Simulates.nested_of_link`, `Simulates.link_of_nested`).
-/

namespace Stache

open Grammar

/-! ## Links and blocks -/

/-- The tokens are a path that does not go on from a call. -/
def IsPlainPath (ts : List Token) : Prop :=
  Derives .segments ts ∨ ∃ ts', ts = .data :: ts' ∧ Derives .segments ts'

/-- What a link of an else chain says: its call, the names it binds and its body. -/
structure Clause where
  /-- The first expression of the call. -/
  head : Fragment
  /-- The other expressions of the call, and the named arguments. -/
  arguments : Fragment
  names : Fragment
  body : Fragment
  isPlainPath_head : IsPlainPath head.tokens
  derives_arguments : ∃ ts ts', arguments.tokens = ts ++ ts' ∧ Derives .exprs ts ∧
    Derives .pairs ts'
  derives_names : Derives .names names.tokens
  derives_body : Derives .statements body.tokens

/-- The body of a last section without a call. -/
structure LastBody where
  body : Fragment
  derives_body : Derives .statements body.tokens

namespace Fragment

/-- The kind of an opening tag: that of a link of a chain, or that of a block. -/
def openerKind (link : Bool) : Opener := if link then .chain else .block

/-- `{{else` for a link, `{{#` for a block. -/
def openerText (link : Bool) : Text := (if link then "\x7b\x7belse" else "\x7b\x7b#").toList

/-- The delimiter of an opening tag.  There is a blank behind `{{else`. -/
def opener (link : Bool) : Fragment :=
  single (.opener (openerKind link) (openerText link)) (openerText link)
    (if link then [' '] else [])

/-- `{{/` -/
def closeOpener : Fragment := single (.opener .close "\x7b\x7b/".toList) "\x7b\x7b/".toList []

/-- `}}` -/
def tagCloser : Fragment := single (.closer "\x7d\x7d".toList) "\x7d\x7d".toList []

/-- `{{else}}` -/
def elseTag : Fragment :=
  single (.elseTag "\x7b\x7belse\x7d\x7d".toList) "\x7b\x7belse\x7d\x7d".toList []

/-- The last section without a call, if there is one. -/
def last : Option LastBody → Fragment
  | none => padding []
  | some l => elseTag ++ l.body

end Fragment

namespace Clause

open Fragment

/-- The call. -/
def call (c : Clause) : Fragment := c.head ++ c.arguments

/-- The opening tag. -/
def opening (c : Clause) (link : Bool) : Fragment :=
  opener link ++ (c.call ++ (c.names ++ tagCloser))

/-- The closing tag. -/
def closing (c : Clause) : Fragment := closeOpener ++ (c.head ++ tagCloser)

/-- The clause as a link of a chain that goes on with `rest`. -/
def link (c : Clause) (rest : Fragment) : Fragment :=
  c.opening true ++ (c.body ++ rest)

/-- The clause as a block with the else section `rest`. -/
def block (c : Clause) (rest : Fragment) : Fragment :=
  c.opening false ++ (c.body ++ (rest ++ c.closing))

end Clause

namespace Fragment

/-- The rest of an else chain. -/
def chained (clauses : List Clause) (l : Option LastBody) : Fragment :=
  clauses.foldr Clause.link (last l)

/-- The same with every link as a block inside an else section. -/
def nested (clauses : List Clause) (l : Option LastBody) : Fragment :=
  clauses.foldr (fun c rest => elseTag ++ c.block rest) (last l)

end Fragment

/-! ## Derivations -/

theorem IsPlainPath.derives {ts : List Token} (h : IsPlainPath ts) : Derives .expr ts := by
  rcases h with h | ⟨ts', rfl, h⟩
  · exact .path h
  · exact .data h

namespace Clause

variable (c : Clause)

theorem derives_call : Derives .call c.call.tokens := by
  obtain ⟨ts, ts', hts, hparams, hpairs⟩ := c.derives_arguments
  rw [call, Fragment.tokens_append, hts]
  exact .call c.isPlainPath_head.derives hparams hpairs

theorem derives_opening (link : Bool) :
    Derives (.opening (Fragment.openerKind link)) (c.opening link).tokens := by
  simp only [opening, Fragment.opener, Fragment.tagCloser, Fragment.tokens_append,
    Fragment.tokens_single]
  exact .opening c.derives_call c.derives_names

theorem derives_closing : Derives .closing c.closing.tokens := by
  simp only [closing, Fragment.closeOpener, Fragment.tagCloser, Fragment.tokens_append,
    Fragment.tokens_single]
  exact .closing c.isPlainPath_head.derives

theorem derives_link {rest : Fragment} (h : Derives (.elseSection true) rest.tokens) :
    Derives (.elseSection true) (c.link rest).tokens := by
  simp only [link, Fragment.tokens_append]
  exact .sectionLink (c.derives_opening true) c.derives_body h

theorem derives_block {rest : Fragment} (h : Derives (.elseSection true) rest.tokens) :
    Derives .statement (c.block rest).tokens := by
  simp only [block, Fragment.tokens_append]
  exact .block (c.derives_opening false) c.derives_body h c.derives_closing

theorem derives_nested {rest : Fragment} (h : Derives (.elseSection true) rest.tokens) :
    Derives (.elseSection true) (Fragment.elseTag ++ c.block rest).tokens := by
  rw [Fragment.tokens_append]
  have hbody := Derives.statementsCons (c.derives_block h) .statementsNil
  rw [List.append_nil] at hbody
  exact .sectionPlain hbody

end Clause

theorem derives_last (l : Option LastBody) :
    Derives (.elseSection true) (Fragment.last l).tokens := by
  cases l with
  | none => exact .sectionNone
  | some l =>
      rw [Fragment.last, Fragment.tokens_append]
      exact .sectionPlain l.derives_body

theorem derives_chained (clauses : List Clause) (l : Option LastBody) :
    Derives (.elseSection true) (Fragment.chained clauses l).tokens := by
  induction clauses with
  | nil => exact derives_last l
  | cons c clauses ih => exact c.derives_link ih

theorem derives_nested (clauses : List Clause) (l : Option LastBody) :
    Derives (.elseSection true) (Fragment.nested clauses l).tokens := by
  induction clauses with
  | nil => exact derives_last l
  | cons c clauses ih => exact c.derives_nested ih

/-! ## Opening and closing tags -/

namespace Clause

variable {g g' : Grammar} {c : Clause} {link link' : Bool} {ls ls' own : List Lexeme}
  {head : BlockOpening}

/-- What an opening tag looks like. -/
theorem exists_tag_of_opening (h : g.Holds (c.opening link) ls) :
    ∃ front back s s', ls = tag (Fragment.openerKind link) (Fragment.openerText link) s
        (front ++ back) "\x7d\x7d".toList s' ∧
      g.Holds c.call front ∧ g.Holds c.names back := by
  obtain ⟨_, _, rfl, hopener, hmore⟩ := h.exists_append
  obtain ⟨s, rfl⟩ := hopener.exists_single
  obtain ⟨front, _, rfl, hfront, hmore'⟩ := hmore.exists_append
  obtain ⟨back, _, rfl, hback, hcloser⟩ := hmore'.exists_append
  obtain ⟨s', rfl⟩ := hcloser.exists_single
  refine ⟨front, back, s, s', ?_, hfront, hback⟩
  rw [tag, List.append_assoc]
  rfl

theorem exists_tag_of_closing (h : g.Holds c.closing ls) :
    ∃ own s s', ls = tag .close "\x7b\x7b/".toList s own "\x7d\x7d".toList s' ∧
      g.Holds c.head own := by
  obtain ⟨_, _, rfl, hopener, hmore⟩ := h.exists_append
  obtain ⟨s, rfl⟩ := hopener.exists_single
  obtain ⟨own, _, rfl, hown, hcloser⟩ := hmore.exists_append
  obtain ⟨s', rfl⟩ := hcloser.exists_single
  exact ⟨own, s, s', rfl, hown⟩

variable {f : Fragment}

theorem parts_of_link (h : g.Holds (c.link f) ls) :
    ∃ ls₁ ls₂ ls₃, ls = ls₁ ++ (ls₂ ++ ls₃) ∧ g.Holds (c.opening true) ls₁ ∧
      g.Holds c.body ls₂ ∧ g.Holds f ls₃ := by
  obtain ⟨ls₁, _, rfl, hls₁, hmore⟩ := h.exists_append
  obtain ⟨ls₂, ls₃, rfl, hls₂, hls₃⟩ := hmore.exists_append
  exact ⟨ls₁, ls₂, ls₃, rfl, hls₁, hls₂, hls₃⟩

theorem parts_of_block (h : g.Holds (c.block f) ls) :
    ∃ ls₁ ls₂ ls₃ ls₄, ls = ls₁ ++ (ls₂ ++ (ls₃ ++ ls₄)) ∧ g.Holds (c.opening false) ls₁ ∧
      g.Holds c.body ls₂ ∧ g.Holds f ls₃ ∧ g.Holds c.closing ls₄ := by
  obtain ⟨ls₁, _, rfl, hls₁, hmore⟩ := h.exists_append
  obtain ⟨ls₂, _, rfl, hls₂, hmore'⟩ := hmore.exists_append
  obtain ⟨ls₃, ls₄, rfl, hls₃, hls₄⟩ := hmore'.exists_append
  exact ⟨ls₁, ls₂, ls₃, ls₄, rfl, hls₁, hls₂, hls₃, hls₄⟩

theorem endsCall_of_names {ts : List Token} (h : Derives .names ts) :
    Fronts Token.endsCall ts := by
  cases h with
  | namesNone => exact .nil
  | namesSome _ => exact .cons rfl

/-- What an opening tag writes is made of what its parts write. -/
theorem parts_of_opening (h : g.WritesOpening (Fragment.openerKind link) ls head)
    (hls : g.Holds (c.opening link) ls) :
    head.opener = Fragment.openerText link ∧ ∃ front back, g.Holds c.call front ∧
      g.Holds c.names back ∧ g.WritesCall front head.call ∧
      WritesNames back head.blockParams := by
  obtain ⟨front, back, s, s', rfl, hfront, hback⟩ := exists_tag_of_opening hls
  generalize hall : tag (Fragment.openerKind link) (Fragment.openerText link) s (front ++ back)
    "\x7d\x7d".toList s' = ls at h
  cases h with
  | mk hcall hnames _ =>
      obtain ⟨hfirst, hinside⟩ := List.cons.inj hall
      obtain ⟨-, hopener⟩ := Token.opener.inj (Lexeme.mk.inj hfirst).1
      obtain ⟨hparts, -⟩ := List.append_inj' hinside rfl
      obtain ⟨rfl, rfl⟩ := split_call hcall (hfront.tokens_eq ▸ c.derives_call) hparts.symm
        (endsCall_of_names (derives_of_writesNames hnames))
        (endsCall_of_names (hback.tokens_eq ▸ c.derives_names))
      exact ⟨hopener.symm, _, _, hfront, hback, hcall, hnames⟩

/-- What the clause opens with in one template it opens with in another one, perhaps as a tag of
another kind. -/
theorem exists_opening (hb : g.builder.Placeless) (hbuilder : g'.builder = g.builder)
    (h : g.WritesOpening (Fragment.openerKind link) ls head) (hls : g.Holds (c.opening link) ls)
    (hls' : g'.Holds (c.opening link') ls') :
    ∃ head', g'.WritesOpening (Fragment.openerKind link') ls' head' ∧
      head'.call.unlocated = head.call.unlocated ∧ head'.blockParams = head.blockParams := by
  obtain ⟨-, front, back, hfront, hback, hcall, hnames⟩ := parts_of_opening h hls
  obtain ⟨front', back', s, s', rfl, hfront', hback'⟩ := exists_tag_of_opening hls'
  obtain ⟨called, hcalled, hsame⟩ :=
    mirrored_of_writesCall hb hcall (hfront.mirrors hfront' hbuilder)
  have hnames' := mirrored_names hnames (hback.mirrors hback' hbuilder)
  refine ⟨_, .mk hcalled hnames' ?_, hsame, rfl⟩
  cases link' <;> exact nofun

theorem exists_path_of_isPlainPath {e : Expr} (h : g.WritesExpr ls e)
    (hls : IsPlainPath (tokensOf ls)) : ∃ p, e = .path p := by
  have hfirst : ∃ t ts, tokensOf ls = t :: ts ∧ (t = .data ∨ ∃ name, t = .ident name) := by
    generalize tokensOf ls = all at hls ⊢
    rcases hls with hls | ⟨ts, hts, -⟩
    · cases hls with
      | segments _ => exact ⟨_, _, rfl, .inr ⟨_, rfl⟩⟩
    · exact ⟨_, ts, hts, .inl rfl⟩
  obtain ⟨t, ts, hts, ht⟩ := hfirst
  cases h with
  | path | data | subPath => exact ⟨_, rfl⟩
  | hash | sub | array | string | number | boolean | undefined | null =>
      obtain ⟨rfl, -⟩ := List.cons.inj hts
      rcases ht with ht | ⟨name, ht⟩ <;> cases ht

/-- The head of the call is written by the head of the clause. -/
theorem exists_head {called : Call} (h : g.WritesCall ls called) (hls : g.Holds c.call ls) :
    ∃ own p, g.Holds c.head own ∧ g.WritesExpr own (.path p) ∧ called.head = .path p := by
  obtain ⟨own, arguments, hall, hown, harguments⟩ := hls.exists_append
  have hbehind : ∀ {ts ts' : List Token}, Derives .exprs ts → Derives .pairs ts' →
      Fronts Token.endsExpr (ts ++ ts') := fun hexprs hpairs => by
    have hend := (endsParams_pairs hpairs .nil).endsExpr
    rw [List.append_nil] at hend
    exact fronts_exprs hexprs hend
  obtain ⟨ts, ts', hts, hparams, hpairs⟩ := c.derives_arguments
  cases h with
  | mk hhead hparams' hpairs' =>
      have hends := hbehind (derives_of_writesExprs hparams') (derives_of_writesPairs hpairs')
      have hends' := hbehind hparams hpairs
      rw [← tokensOf_append] at hends
      rw [← hts, ← harguments.tokens_eq] at hends'
      obtain ⟨rfl, -⟩ := split_expr hhead (hown.tokens_eq ▸ c.isPlainPath_head.derives) hall hends
        hends'
      obtain ⟨p, rfl⟩ := exists_path_of_isPlainPath hhead (hown.tokens_eq ▸ c.isPlainPath_head)
      exact ⟨_, p, hown, hhead, rfl⟩

/-- The closing tag of the clause closes what it opens. -/
theorem exists_closing (hb : g.builder.Placeless)
    (h : g.WritesOpening (Fragment.openerKind link) ls head) (hls : g.Holds (c.opening link) ls)
    (hown : g.Holds c.closing own) :
    ∃ name strip, g.WritesClosing own ⟨some name, strip⟩ ∧
      head.call.head.ClosedBy name.written? := by
  obtain ⟨-, front, back, hfront, -, hcall, -⟩ := parts_of_opening h hls
  obtain ⟨opened, p, hopened, hp, hhead⟩ := exists_head hcall hfront
  obtain ⟨closed, s, s', rfl, hclosed⟩ := exists_tag_of_closing hown
  obtain ⟨name, hname, hsame⟩ := mirrored_of_writesExpr hb hp (hopened.mirrors hclosed rfl)
  refine ⟨name, _, .mk hname, p, hhead, ?_⟩
  rw [← name.written?_unlocated, hsame, Expr.written?_unlocated]
  rfl

end Clause

/-! ## What a clause writes -/

/-- With `f` as its else section, the clause writes a block that is `node` up to places, markers
and chains, be it as a link of a chain or as a block. -/
inductive Clause.Writes (g : Grammar) (c : Clause) (link : Bool) (f : Fragment) :
    Statement → Prop where
  | mk {ls₁ ls₂ ls₃ : List Lexeme} {head : BlockOpening} {body : List Statement}
      {other : Option ElseSection} (hls₁ : g.Holds (c.opening link) ls₁) (hls₂ : g.Holds c.body ls₂)
      (hls₃ : g.Holds f ls₃) (hhead : g.WritesOpening (Fragment.openerKind link) ls₁ head)
      (hbody : g.WritesStatements ls₂ body) (hother : g.WritesSection true ls₃ other) :
      Writes g c link f (Builder.bareBlock false head (Builder.program body none) other)

namespace Clause

variable {g : Grammar} {c : Clause} {f : Fragment} {ls ls₁ ls₂ ls₃ ls₄ : List Lexeme}
  {head : BlockOpening} {body : List Statement} {other : Option ElseSection}

theorem writes_of_block (hf : Derives (.elseSection true) f.tokens) {s : Statement}
    (hls : g.Holds (c.block f) ls) (h : g.WritesStatement ls s) : c.Writes g false f s.bare := by
  obtain ⟨ls₁, ls₂, ls₃, ls₄, rfl, hls₁, hls₂, hls₃, hls₄⟩ := parts_of_block hls
  obtain ⟨head, body, other, tail, hhead, hbody, hother, -, hblock⟩ :=
    exists_of_block_parts h (hls₁.tokens_eq ▸ c.derives_opening false)
      (hls₂.tokens_eq ▸ c.derives_body) (hls₃.tokens_eq ▸ hf)
      (hls₄.tokens_eq ▸ c.derives_closing)
  rw [(Builder.bare_of_block hblock).2]
  exact .mk hls₁ hls₂ hls₃ hhead hbody hother

theorem writes_of_link (hf : Derives (.elseSection true) f.tokens) (hls : g.Holds (c.link f) ls)
    (h : g.WritesSection true ls other) :
    ∃ s node, other = some s ∧ s.program.bare = .only node ∧ c.Writes g true f node := by
  obtain ⟨ls₁, ls₂, ls₃, rfl, hls₁, hls₂, hls₃⟩ := parts_of_link hls
  obtain ⟨head, body, next, block, hhead, hbody, hnext, hblock, rfl⟩ :=
    exists_of_link_parts h (hls₁.tokens_eq ▸ c.derives_opening true)
      (hls₂.tokens_eq ▸ c.derives_body) (hls₃.tokens_eq ▸ hf)
  refine ⟨_, _, rfl, Builder.bare_chainedProgram _ _, ?_⟩
  rw [(Builder.bare_of_block hblock).2]
  exact .mk hls₁ hls₂ hls₃ hhead hbody hnext

theorem writes_of_nested (hf : Derives (.elseSection true) f.tokens)
    (hls : g.Holds (Fragment.elseTag ++ c.block f) ls) (h : g.WritesSection true ls other) :
    ∃ s node, other = some s ∧ s.program.bare = .only node ∧ c.Writes g false f node := by
  obtain ⟨_, own, rfl, htag, hblock⟩ := hls.exists_append
  obtain ⟨s, rfl⟩ := htag.exists_single
  obtain ⟨body, hbody, rfl⟩ :=
    exists_of_elseTag (show g.WritesSection true (_ :: own) other from h)
  obtain ⟨node, rfl, hnode⟩ := exists_of_single hbody (hblock.tokens_eq ▸ c.derives_block hf)
  exact ⟨_, _, rfl, Builder.bare_single _ _, writes_of_block hf hblock hnode⟩

/-- The parts of a block make one, since its closing tag closes it. -/
theorem exists_block (hb : g.builder.Placeless) (hls₁ : g.Holds (c.opening false) ls₁)
    (hls₄ : g.Holds c.closing ls₄) (hhead : g.WritesOpening .block ls₁ head)
    (hbody : g.WritesStatements ls₂ body) (hother : g.WritesSection true ls₃ other)
    (hfits : ∀ s ∈ other, s.Fits (head.opener.contains '*')) :
    ∃ s, g.WritesStatement (ls₁ ++ (ls₂ ++ (ls₃ ++ ls₄))) s ∧
      s.bare = Builder.bareBlock false head (Builder.program body none) other := by
  have hopening : g.WritesOpening (Fragment.openerKind false) ls₁ head := hhead
  obtain ⟨name, strip, htail, hcloses⟩ := exists_closing hb hopening hls₁ hls₄
  have hfitting : Builder.Fitting head other (some ⟨some name, strip⟩) := by
    refine ⟨?_, hfits⟩
    rintro _ ⟨⟩
    exact hcloses
  obtain ⟨s, hs⟩ : ∃ s, g.builder.block head (Builder.program body none) other
      (some ⟨some name, strip⟩) false (g.extentOf (ls₁ ++ (ls₂ ++ (ls₃ ++ ls₄)))) = .ok s :=
    Builder.exists_block hfitting
  have hinverted : g.WritesOpening (if false then .inverse else .block) ls₁ head := hhead
  exact ⟨s, .block hinverted hbody hother htail hs, (Builder.bare_of_block hs).2⟩

/-- The parts of a link make one. -/
theorem exists_link (hls₁ : g.Holds (c.opening true) ls₁) (hhead : g.WritesOpening .chain ls₁ head)
    (hbody : g.WritesStatements ls₂ body) (hother : g.WritesSection true ls₃ other)
    (hfits : ∀ s ∈ other, s.Fits (head.opener.contains '*')) :
    ∃ s, g.WritesSection true (ls₁ ++ (ls₂ ++ ls₃)) (some s) ∧ s.Fits false ∧ s.program.bare =
      .only (Builder.bareBlock false head (Builder.program body none) other) := by
  have hfitting : Builder.Fitting head other
      (other.map fun s => (⟨none, s.strip⟩ : BlockClosing)) := by
    refine ⟨?_, hfits⟩
    cases other <;> nofun
  obtain ⟨block, hblock⟩ : ∃ s, g.builder.block head (Builder.program body none) other
      (other.map fun s => (⟨none, s.strip⟩ : BlockClosing)) false
      (g.extentOf (ls₁ ++ (ls₂ ++ ls₃))) = .ok s := Builder.exists_block hfitting
  obtain ⟨-, hbare⟩ := Builder.bare_of_block hblock
  refine ⟨_, .link hhead hbody hother hblock, ⟨rfl, fun _ => ?_⟩, ?_⟩
  · have hopening : g.WritesOpening (Fragment.openerKind true) ls₁ head := hhead
    obtain ⟨hopener, -⟩ := parts_of_opening hopening hls₁
    rw [Builder.bareBlock, hopener] at hbare
    cases block with
    | block node => exact ⟨node, [], rfl⟩
    | _ => cases hbare
  · rw [← hbare]
    exact Builder.bare_chainedProgram _ _

end Clause

/-! ## Chains against blocks -/

/-- Whatever the else section `f` writes in one template, `f'` writes the same in the other one, up
to places, markers and chains. -/
def Simulates (g g' : Grammar) (f f' : Fragment) : Prop :=
  ∀ ⦃ls ls' : List Lexeme⦄ ⦃other : Option ElseSection⦄, g.Holds f ls → g'.Holds f' ls' →
    g.WritesSection true ls other → ∃ other', g'.WritesSection true ls' other' ∧
      Section.bare (other'.map ElseSection.program) =
        Section.bare (other.map ElseSection.program) ∧
      ∀ s ∈ other', s.Fits false

namespace Simulates

variable {g g' : Grammar} {c : Clause} {f f' : Fragment} {link link' : Bool}
  {ls ls' ls₁ ls₂ ls₃ : List Lexeme} {node : Statement} {other : Option ElseSection}

/-- What a clause writes in one template, its parts write in another one. -/
theorem exists_parts (hb : g.builder.Placeless) (hbuilder : g'.builder = g.builder)
    (h : Simulates g g' f f') (hnode : c.Writes g link f node)
    (hls₁ : g'.Holds (c.opening link') ls₁) (hls₂ : g'.Holds c.body ls₂) (hls₃ : g'.Holds f' ls₃) :
    ∃ head body other, g'.WritesOpening (Fragment.openerKind link') ls₁ head ∧
      g'.WritesStatements ls₂ body ∧ g'.WritesSection true ls₃ other ∧
      (∀ s ∈ other, s.Fits (head.opener.contains '*')) ∧
      Builder.bareBlock false head (Builder.program body none) other = node := by
  cases hnode with
  | mk hls₁' hls₂' hls₃' hhead hbody hother =>
      obtain ⟨head', hhead', hcall, hnames⟩ := Clause.exists_opening hb hbuilder hhead hls₁' hls₁
      obtain ⟨body', hbody', hsame⟩ :=
        mirrored_of_writesStatements hb hbody (hls₂'.mirrors hls₂ hbuilder)
      obtain ⟨other', hother', hsame', hfits⟩ := h hls₃' hls₃ hother
      obtain ⟨hopener, -⟩ := Clause.parts_of_opening hhead hls₁'
      obtain ⟨hopener', -⟩ := Clause.parts_of_opening hhead' hls₁
      have hstar : ∀ link, (Fragment.openerText link).contains '*' = false := by decide
      refine ⟨head', body', other', hhead', hbody', hother', ?_, ?_⟩
      · rw [hopener', hstar]
        exact hfits
      · refine Builder.bareBlock_congr hcall ?_ hnames (Builder.bare_program_congr hsame) hsame'
        rw [hopener, hopener', hstar, hstar]

theorem exists_block (hb : g.builder.Placeless) (hbuilder : g'.builder = g.builder)
    (h : Simulates g g' f f') (hnode : c.Writes g link f node) (hls : g'.Holds (c.block f') ls) :
    ∃ s, g'.WritesStatement ls s ∧ s.bare = node := by
  obtain ⟨ls₁, ls₂, ls₃, ls₄, rfl, hls₁, hls₂, hls₃, hls₄⟩ := Clause.parts_of_block hls
  obtain ⟨head, body, other, hhead, hbody, hother, hfits, rfl⟩ :=
    h.exists_parts hb hbuilder hnode hls₁ hls₂ hls₃
  exact Clause.exists_block (hbuilder ▸ hb) hls₁ hls₄ hhead hbody hother hfits

theorem exists_link (hb : g.builder.Placeless) (hbuilder : g'.builder = g.builder)
    (h : Simulates g g' f f') (hnode : c.Writes g link f node) (hls : g'.Holds (c.link f') ls) :
    ∃ s, g'.WritesSection true ls (some s) ∧ s.Fits false ∧ s.program.bare = .only node := by
  obtain ⟨ls₁, ls₂, ls₃, rfl, hls₁, hls₂, hls₃⟩ := Clause.parts_of_link hls
  obtain ⟨head, body, other, hhead, hbody, hother, hfits, rfl⟩ :=
    h.exists_parts hb hbuilder hnode hls₁ hls₂ hls₃
  exact Clause.exists_link hls₁ hhead hbody hother hfits

/-- A link carries over to a block in an else section. -/
theorem nested_of_link (hb : g.builder.Placeless) (hbuilder : g'.builder = g.builder)
    (hf : Derives (.elseSection true) f.tokens) (h : Simulates g g' f f') :
    Simulates g g' (c.link f) (Fragment.elseTag ++ c.block f') := by
  intro ls ls' other hls hls' hother
  obtain ⟨s, node, rfl, hbare, hnode⟩ := Clause.writes_of_link hf hls hother
  obtain ⟨_, own, rfl, htag, hblock⟩ := hls'.exists_append
  obtain ⟨_, rfl⟩ := htag.exists_single
  obtain ⟨s', hs', rfl⟩ := h.exists_block hb hbuilder hnode hblock
  refine ⟨_, .plain (writesStatements_single hs'), congrArg some hbare.symm, ?_⟩
  rintro _ ⟨⟩
  exact ⟨rfl, nofun⟩

/-- A block in an else section carries over to a link. -/
theorem link_of_nested (hb : g.builder.Placeless) (hbuilder : g'.builder = g.builder)
    (hf : Derives (.elseSection true) f.tokens) (h : Simulates g g' f f') :
    Simulates g g' (Fragment.elseTag ++ c.block f) (c.link f') := by
  intro ls ls' other hls hls' hother
  obtain ⟨s, node, rfl, hbare, hnode⟩ := Clause.writes_of_nested hf hls hother
  obtain ⟨s', hs', hfits, hbare'⟩ := h.exists_link hb hbuilder hnode hls'
  refine ⟨some s', hs', congrArg some (hbare'.trans hbare.symm), ?_⟩
  rintro _ ⟨⟩
  exact hfits

/-- The last section is no link. -/
theorem fits_of_last {l : Option LastBody} (hls : g.Holds (.last l) ls)
    (h : g.WritesSection true ls other) : ∀ s ∈ other, s.Fits false := by
  cases l with
  | none =>
      obtain rfl : ls = [] := List.map_eq_nil_iff.mp hls.tokens_eq
      obtain rfl := eq_none_of_writesSection h
      nofun
  | some l =>
      obtain ⟨_, own, rfl, htag, -⟩ := hls.exists_append
      obtain ⟨s, rfl⟩ := htag.exists_single
      obtain ⟨body, -, rfl⟩ :=
        exists_of_elseTag (show g.WritesSection true (_ :: own) other from h)
      rintro _ ⟨⟩
      exact ⟨rfl, nofun⟩

/-- The last section carries over as it is. -/
theorem last (hb : g.builder.Placeless) (hbuilder : g'.builder = g.builder)
    (l : Option LastBody) : Simulates g g' (.last l) (.last l) := by
  intro ls ls' other hls hls' hother
  obtain ⟨other', hother', hsame⟩ :=
    mirrored_of_writesSection hb hother (hls.mirrors hls' hbuilder)
  exact ⟨other', hother', Builder.section_of_bare hsame, fits_of_last hls' hother'⟩

end Simulates

/-! ## Whole chains -/

section Chains

variable {g g' : Grammar}

theorem simulates_nested (hb : g.builder.Placeless) (hbuilder : g'.builder = g.builder)
    (clauses : List Clause) (l : Option LastBody) :
    Simulates g g' (Fragment.chained clauses l) (Fragment.nested clauses l) := by
  induction clauses with
  | nil => exact .last hb hbuilder l
  | cons c clauses ih => exact ih.nested_of_link hb hbuilder (derives_chained clauses l)

theorem simulates_chained (hb : g.builder.Placeless) (hbuilder : g'.builder = g.builder)
    (clauses : List Clause) (l : Option LastBody) :
    Simulates g g' (Fragment.nested clauses l) (Fragment.chained clauses l) := by
  induction clauses with
  | nil => exact .last hb hbuilder l
  | cons c clauses ih => exact ih.link_of_nested hb hbuilder (derives_nested clauses l)

end Chains

/-- A template that is one block is accepted with another else section too, if the one section
carries over to the other. -/
theorem Simulates.exists_parse {b : Builder} (hb : b.Placeless) {c : Clause} {f f' : Fragment}
    (hf : Derives (.elseSection true) f.tokens)
    (h : Simulates ⟨b, (c.block f).text⟩ ⟨b, (c.block f').text⟩ f f') {p : Program}
    (hp : (c.block f).parse b = .ok p) :
    ∃ q, (c.block f').parse b = .ok q ∧ q.bare = p.bare := by
  cases parse_eq_ok_iff.mp hp with
  | mk hbody =>
      obtain ⟨s, rfl, hs⟩ := exists_of_single hbody (c.derives_block hf)
      have hnode := Clause.writes_of_block hf (.whole b _) hs
      obtain ⟨s', hs', hsame⟩ := h.exists_block hb (Eq.refl b) hnode (.whole b (c.block f'))
      refine ⟨_, parse_eq_ok_iff.mpr (.mk (writesStatements_single hs')), ?_⟩
      exact congrArg Program.only hsame

/-- **An else chain is another way to write nested blocks.**  A chain with any number of links is
accepted if and only if the blocks are that stand for it one inside the other, each closed by its
own head.  Then the trees are equal up to places, markers and the mark of a chain, and they print
the same text. -/
theorem parse_chain_iff_nested (b : Builder) (hb : b.Placeless) (c : Clause)
    (clauses : List Clause) (l : Option LastBody) :
    ((∃ p, (c.block (.chained clauses l)).parse b = .ok p) ↔
        ∃ q, (c.block (.nested clauses l)).parse b = .ok q) ∧
      ∀ p q, (c.block (.chained clauses l)).parse b = .ok p →
        (c.block (.nested clauses l)).parse b = .ok q → p.bare = q.bare ∧ p.render = q.render := by
  have hnested : ∀ p, (c.block (.chained clauses l)).parse b = .ok p →
      ∃ q, (c.block (.nested clauses l)).parse b = .ok q ∧ q.bare = p.bare := fun p hp =>
    Simulates.exists_parse hb (derives_chained clauses l)
      (simulates_nested hb (Eq.refl b) clauses l) hp
  refine ⟨⟨?_, ?_⟩, ?_⟩
  · rintro ⟨p, hp⟩
    obtain ⟨q, hq, -⟩ := hnested p hp
    exact ⟨q, hq⟩
  · rintro ⟨q, hq⟩
    obtain ⟨p, hp, -⟩ := Simulates.exists_parse hb (derives_nested clauses l)
      (simulates_chained hb (Eq.refl b) clauses l) hq
    exact ⟨p, hp⟩
  · intro p q hp hq
    obtain ⟨q', hq', hbare⟩ := hnested p hp
    obtain rfl := Except.ok.inj (hq'.symm.trans hq)
    exact ⟨hbare.symm, Program.render_eq_of_bare hbare.symm⟩

/-- `if a` with the body `x`. -/
def ifClause : Clause where
  head := .single (.ident "if".toList) "if".toList []
  arguments := Fragment.padding [' '] ++ Fragment.single (.ident ['a']) ['a'] []
  names := .padding []
  body := .single (.content ['x']) ['x'] []
  isPlainPath_head := .inl (.segments .tailNil)
  derives_arguments := ⟨[.ident ['a']], [], rfl, .exprsCons (.path (.segments .tailNil)) .exprsNil,
    .pairsNil⟩
  derives_names := .namesNone
  derives_body := .statementsCons .content .statementsNil

/-- `each b as |c|` with the body `y`. -/
def eachClause : Clause where
  head := .single (.ident "each".toList) "each".toList []
  arguments := Fragment.padding [' '] ++ Fragment.single (.ident ['b']) ['b'] [' ']
  names := Fragment.single .paramsOpen "as |".toList [] ++
    (Fragment.single (.ident ['c']) ['c'] [] ++ Fragment.single .paramsClose ['|'] [])
  body := .single (.content ['y']) ['y'] []
  isPlainPath_head := .inl (.segments .tailNil)
  derives_arguments := ⟨[.ident ['b']], [], rfl, .exprsCons (.path (.segments .tailNil)) .exprsNil,
    .pairsNil⟩
  derives_names := .namesSome .identsNil
  derives_body := .statementsCons .content .statementsNil

/-- The body `z`. -/
def lastBody : LastBody where
  body := .single (.content ['z']) ['z'] []
  derives_body := .statementsCons .content .statementsNil

/-- `{{#if a}}x{{else each b as |c|}}y{{else}}z{{/if}}` -/
def chainTemplate : Fragment := ifClause.block (.chained [eachClause] (some lastBody))

/-- `{{#if a}}x{{else}}{{#each b as |c|}}y{{else}}z{{/each}}{{/if}}` -/
def nestedTemplate : Fragment := ifClause.block (.nested [eachClause] (some lastBody))

/-- The tokens of both templates are those of their texts, and both are accepted. -/
theorem parse_chainTemplate_nestedTemplate : Builder.Placeless {} ∧
    (tokenize false chainTemplate.text).lexemes = chainTemplate.lexemes ∧
    (tokenize false nestedTemplate.text).lexemes = nestedTemplate.lexemes ∧
    ∃ p q, chainTemplate.parse {} = .ok p ∧ nestedTemplate.parse {} = .ok q ∧ p.bare = q.bare ∧
      p.render = q.render := by
  have hb : Builder.Placeless {} := Builder.placeless_of_literal (g := ⟨{}, []⟩) ⟨nofun, nofun⟩
  obtain ⟨hiff, hsame⟩ := parse_chain_iff_nested {} hb ifClause [eachClause] (some lastBody)
  obtain ⟨p, hp⟩ : ∃ p, chainTemplate.parse {} = .ok p := ⟨_, by cbv⟩
  obtain ⟨q, hq⟩ := hiff.mp ⟨p, hp⟩
  exact ⟨hb, by cbv, by cbv, p, q, hp, hq, hsame p q hp hq⟩

end Stache
