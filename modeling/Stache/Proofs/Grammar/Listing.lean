import Mathlib
import Stache.Proofs.Grammar.Exact
import Stache.Proofs.Grammar.Located
import Stache.Proofs.Source.Boundary
import Stache.Proofs.Tree.Listing

/-!
# Tokens that begin statements

A text, a comment and the delimiter that opens a tag begin a statement of their
own; all other tokens belong to a statement that has begun already.  Nothing is
lost on the way into the tree and nothing comes twice: the tokens that begin
statements and the statements of the tree correspond, one to one
(`announced_of_parse`).

The correspondence is proved along the derivation, where a part of the tokens
begins the statements of the part of the tree that they write.  The sections of
an inverted block change places in the tree, so only the listing by location has
the order of the tokens.
-/

namespace Stache

/-- The kind of the statement that begins with a delimiter, with a star or without. -/
def Opener.begins? (starred : Bool) : Opener → Option Kind
  | .plain | .unescaped => some (if starred then .decorator else .mustache)
  | .block | .inverse | .chain => some (if starred then .decoratorBlock else .block)
  | .inclusion => some .inclusion
  | .inclusionBlock => some .inclusionBlock
  | .close => none

/-- The kind of the statement that begins with a token. -/
def Token.begins? : Token → Option Kind
  | .content _ => some .content
  | .comment _ => some .comment
  | .opener kind text => kind.begins? (text.contains '*')
  | .rawOpener => some .block
  | _ => none

/-- The tokens that begin statements. -/
def beginnings (ls : List Lexeme) : List Lexeme := ls.filter fun l => l.token.begins?.isSome

theorem beginnings_append (ls ls' : List Lexeme) :
    beginnings (ls ++ ls') = beginnings ls ++ beginnings ls' := List.filter_append ..

theorem beginnings_cons_of_some {l : Lexeme} {kind : Kind} (h : l.token.begins? = some kind)
    (ls : List Lexeme) : beginnings (l :: ls) = l :: beginnings ls :=
  List.filter_cons_of_pos (by rw [h]; rfl)

theorem beginnings_cons_of_none {l : Lexeme} (h : l.token.begins? = none) (ls : List Lexeme) :
    beginnings (l :: ls) = beginnings ls :=
  List.filter_cons_of_neg (by rw [h]; nofun)

/-- Nothing begins inside a tag. -/
theorem Inner.beginnings {ls : List Lexeme} (h : Inner ls) : beginnings ls = [] := by
  induction ls with
  | nil => rfl
  | cons l ls ih =>
      obtain ⟨hl, hls⟩ := List.forall_mem_cons.mp h
      obtain ⟨token, span⟩ := l
      refine (beginnings_cons_of_none ?_ ls).trans (ih hls)
      cases token <;> first | rfl | exact nomatch hl

namespace Builder

variable {b : Builder}

theorem kind_mustache (opener : Text) (called : Call) (strip : Strip) (x : Extent) :
    (b.mustache opener called strip x).kind =
      if opener.contains '*' then .decorator else .mustache := by
  unfold mustache
  dsimp only
  split <;> rfl

/-- A star makes a block that is built a decorator. -/
theorem kind_of_block {head : BlockOpening} {program : Program} {other : Option ElseSection}
    {closing : Option BlockClosing} {inverted : Bool} {x : Extent} {s : Statement}
    (h : b.block head program other closing inverted x = .ok s) :
    s.kind = if head.opener.contains '*' then .decoratorBlock else .block := by
  have hkind {node : Block} (h : Except.ok (if head.opener.contains '*' then
      Statement.decoratorBlock node else .block node) = (Except.ok s : Except BuildError _)) :
      s.kind = if head.opener.contains '*' then .decoratorBlock else .block := by
    rw [← Except.ok.inj h]
    split <;> rfl
  rw [block] at h
  dsimp only at h
  split at h
  · obtain ⟨-, -, h⟩ := exists_of_bind_eq_ok h
    obtain ⟨inverse, -, h⟩ := exists_of_bind_eq_ok h
    exact hkind h
  · obtain ⟨inverse, -, h⟩ := exists_of_bind_eq_ok h
    exact hkind h

end Builder

namespace Grammar

variable (g : Grammar)

/-- The token announces the statement: it tells the kind and where the statement starts, and a text
or a comment says what its token says. -/
structure Announces (l : Lexeme) (s : Statement) : Prop where
  kind : l.token.begins? = some s.kind
  source : s.loc.source = g.builder.source
  start : s.loc.start = Source.position g.text l.span.start
  content : ∀ t, l.token = .content t → ∃ loc, s = .content (.untrimmed t loc)
  comment : ∀ t, l.token = .comment t → ∃ c, s = .comment c ∧ c.value = commentText t

/-- The tokens that begin statements begin the given ones, each its own. -/
def Lists (ls : List Lexeme) (ss : List Statement) : Prop :=
  ∃ own : List Lexeme, (beginnings ls).Perm own ∧ List.Forall₂ g.Announces own ss

variable {g} {ls ls' : List Lexeme} {ss ss' : List Statement}

namespace Lists

theorem nil : g.Lists [] [] := ⟨[], .nil, .nil⟩

theorem of_inner (h : Inner ls) : g.Lists ls [] := ⟨[], h.beginnings ▸ .nil, .nil⟩

theorem append (h : g.Lists ls ss) (h' : g.Lists ls' ss') : g.Lists (ls ++ ls') (ss ++ ss') := by
  obtain ⟨own, hperm, hbegins⟩ := h
  obtain ⟨own', hperm', hbegins'⟩ := h'
  refine ⟨own ++ own', ?_, List.rel_append hbegins hbegins'⟩
  rw [beginnings_append]
  exact hperm.append hperm'

theorem perm (h : g.Lists ls ss) (hss : ss.Perm ss') : g.Lists ls ss' := by
  obtain ⟨own, hperm, hbegins⟩ := h
  obtain ⟨own', hown, hbegins'⟩ := List.perm_comp_forall₂ hss.symm hbegins.flip
  exact ⟨own', hperm.trans hbegins'.symm, hown.flip⟩

theorem cons {l : Lexeme} {s : Statement} (hl : g.Announces l s) (h : g.Lists ls ss) :
    g.Lists (l :: ls) (s :: ss) := by
  obtain ⟨own, hperm, hbegins⟩ := h
  refine ⟨l :: own, ?_, .cons hl hbegins⟩
  rw [beginnings_cons_of_some hl.kind]
  exact hperm.cons l

/-- A token that begins nothing. -/
theorem skip {l : Lexeme} (hl : l.token.begins? = none) (h : g.Lists ls ss) :
    g.Lists (l :: ls) ss := by
  obtain ⟨own, hperm, hbegins⟩ := h
  exact ⟨own, beginnings_cons_of_none hl ls ▸ hperm, hbegins⟩

/-- A token that begins nothing, at the end. -/
theorem behind {t : Token} {s : Span} (h : g.Lists ls ss) (ht : t.begins? = none) :
    g.Lists (ls ++ [⟨t, s⟩]) ss := List.append_nil ss ▸ h.append (.skip ht .nil)

/-- Nothing begins inside a tag and with its closing delimiter. -/
theorem of_inside {t : Token} {s : Span} (h : Inner ls) (ht : t.begins? = none) :
    g.Lists (ls ++ [⟨t, s⟩]) [] := (of_inner h).behind ht

end Lists

/-- A statement begins with the first of its tokens. -/
theorem announces_of_place {t : Token} {sp : Span} {s : Statement}
    (hkind : t.begins? = some s.kind) (hloc : s.loc = g.place (⟨t, sp⟩ :: ls))
    (hcontent : s.kind ≠ .content) (hcomment : s.kind ≠ .comment) : g.Announces ⟨t, sp⟩ s := by
  refine ⟨hkind, by rw [hloc]; rfl, by rw [hloc]; rfl, ?_, ?_⟩
  · rintro _ rfl
    exact absurd (Option.some.inj hkind).symm hcontent
  · rintro _ rfl
    exact absurd (Option.some.inj hkind).symm hcomment

/-! ## Tags -/

theorem lists_of_writesClosing {tail : BlockClosing} (h : g.WritesClosing ls tail) :
    g.Lists ls [] := by
  cases h with
  | mk h => exact .skip rfl (.of_inside (inner_of_writesExpr h) rfl)

/-- The opening tag of a block begins the block, and what follows it lists what is in the block. -/
theorem lists_of_writesOpening {kind : Opener} {head : BlockOpening} {s : Statement}
    (h : g.WritesOpening kind ls head)
    (hkind : kind.begins? (head.opener.contains '*') = some s.kind)
    (hloc : s.loc = g.place (ls ++ ls')) (hcontent : s.kind ≠ .content)
    (hcomment : s.kind ≠ .comment) (hmore : g.Lists ls' ss) : g.Lists (ls ++ ls') (s :: ss) := by
  cases h with
  | mk hcall hnames _ =>
      have hinner := (inner_of_writesCall hcall).append (inner_of_writesNames hnames)
      exact .cons (announces_of_place hkind hloc hcontent hcomment)
        ((Lists.of_inside hinner rfl).append hmore)

/-- A tag without sections is a statement by itself. -/
theorem lists_of_tag {t t' : Token} {sp sp' : Span} {s : Statement} (hinner : Inner ls)
    (hkind : t.begins? = some s.kind) (ht' : t'.begins? = none)
    (hloc : s.loc = g.place (⟨t, sp⟩ :: (ls ++ [⟨t', sp'⟩]))) (hcontent : s.kind ≠ .content)
    (hcomment : s.kind ≠ .comment) : g.Lists (⟨t, sp⟩ :: (ls ++ [⟨t', sp'⟩])) [s] :=
  .cons (announces_of_place hkind hloc hcontent hcomment) (.of_inside hinner ht')

theorem kind_mustache_ne {opener : Text} {called : Call} {strip : Strip} {x : Extent} {kind : Kind}
    (hdecorator : Kind.decorator ≠ kind) (hmustache : Kind.mustache ≠ kind) :
    (g.builder.mustache opener called strip x).kind ≠ kind := by
  rw [Builder.kind_mustache]
  split
  · exact hdecorator
  · exact hmustache

theorem listed_mustache (opener : Text) (called : Call) (strip : Strip) (x : Extent) :
    (g.builder.mustache opener called strip x).listed =
      [g.builder.mustache opener called strip x] := by
  obtain ⟨escaped, hs | hs⟩ := g.builder.exists_of_mustache opener called strip x <;>
    exact hs ▸ rfl

/-- A tag that writes a value. -/
theorem lists_mustache {kind : Opener} {opener closer : Text} {t' : Token} {sp sp' : Span}
    {called : Call} (h : g.WritesCall ls called)
    (hkind : kind.begins? (opener.contains '*') =
      some (if opener.contains '*' then .decorator else .mustache)) (ht' : t'.begins? = none) :
    g.Lists (⟨.opener kind opener, sp⟩ :: (ls ++ [⟨t', sp'⟩]))
      (g.builder.mustache opener called (.ofDelimiters opener closer)
        (g.extentOf (⟨.opener kind opener, sp⟩ :: (ls ++ [⟨t', sp'⟩])))).listed := by
  rw [listed_mustache]
  refine lists_of_tag (inner_of_writesCall h) ?_ ht' ?_ ?_ ?_
  · rw [Builder.kind_mustache]
    exact hkind
  · obtain ⟨escaped, hs | hs⟩ := g.builder.exists_of_mustache opener called
      (.ofDelimiters opener closer) (g.extentOf (⟨.opener kind opener, sp⟩ :: (ls ++ [⟨t', sp'⟩])))
      <;> exact hs ▸ rfl
  · exact kind_mustache_ne nofun nofun
  · exact kind_mustache_ne nofun nofun

theorem announces_content (t : Text) (sp : Span) :
    g.Announces ⟨.content t, sp⟩ (g.builder.content t (g.extentOf [⟨.content t, sp⟩])) :=
  ⟨rfl, rfl, rfl, fun _ h => ⟨g.place [⟨.content t, sp⟩], Token.content.inj h ▸ rfl⟩, nofun⟩

theorem announces_comment (t : Text) (sp : Span) :
    g.Announces ⟨.comment t, sp⟩ (g.builder.comment t (g.extentOf [⟨.comment t, sp⟩])) :=
  ⟨rfl, rfl, rfl, nofun, fun _ h => ⟨_, rfl, Token.comment.inj h ▸ rfl⟩⟩

theorem lists_of_writesContents {body : List Statement} (h : g.WritesContents ls body) :
    g.Lists ls (Body.listed body) := by
  induction h with
  | nil => exact .nil
  | cons _ ih => exact .cons (announces_content _ _) ih

/-! ## Blocks -/

/-- What a block lists beside itself, whichever of its sections comes first. -/
theorem listed_of_block {head : BlockOpening} {body : List Statement} {other : Option ElseSection}
    {closing : Option BlockClosing} {inverted : Bool} {x : Extent} {s : Statement}
    (h : g.builder.block head (Builder.program body none) other closing inverted x = .ok s) :
    ∃ decorator inverse,
      Builder.inverseProgram decorator ((closing.map BlockClosing.strip).getD {})
        (g.builder.locate x) other = .ok inverse ∧
      (s :: (Body.listed body ++ Section.listed inverse)).Perm s.listed := by
  obtain ⟨decorator, inverse, node, hinverse, hs, rfl⟩ := Builder.exists_of_block h
  refine ⟨decorator, inverse, hinverse, ?_⟩
  cases inverted with
  | false => rcases hs with rfl | rfl <;> exact .refl _
  | true => rcases hs with rfl | rfl <;> exact (List.perm_append_comm).cons _

theorem kind_of_block_ne {head : BlockOpening} {program : Program} {other : Option ElseSection}
    {closing : Option BlockClosing} {inverted : Bool} {x : Extent} {s : Statement} {kind : Kind}
    (h : g.builder.block head program other closing inverted x = .ok s)
    (hdecorator : Kind.decoratorBlock ≠ kind) (hblock : Kind.block ≠ kind) : s.kind ≠ kind := by
  rw [Builder.kind_of_block h]
  split
  · exact hdecorator
  · exact hblock

/-- Only its closing markers tell a link in its chain from the block that was built. -/
theorem Announces.closed {l : Lexeme} {node : Block} (h : g.Announces l (.block node))
    (closing : Strip) : g.Announces l (.block { node with closeStrip := closing }) := by
  refine ⟨h.kind, h.source, h.start, fun t ht => ?_, fun t ht => ?_⟩
  · obtain ⟨loc, hs⟩ := h.content t ht
    cases hs
  · obtain ⟨c, hs, -⟩ := h.comment t ht
    cases hs

/-- The same for all that a link lists. -/
theorem Lists.closed {node : Block} (h : g.Lists ls (Statement.listed (.block node)))
    (closing : Strip) :
    g.Lists ls (Statement.listed (.block { node with closeStrip := closing })) := by
  obtain ⟨call, main, inverse, opening, middle, old, loc⟩ := node
  obtain ⟨own, hperm, hbegins⟩ := h
  cases hbegins with
  | cons hl hbegins => exact ⟨_, hperm, .cons (hl.closed closing) hbegins⟩

/-! ## Statements -/

mutual

theorem lists_of_writesStatements : ∀ {ls : List Lexeme} {body : List Statement},
    g.WritesStatements ls body → g.Lists ls (Body.listed body)
  | _, _, .nil => .nil
  | _, _, .cons hs h => (lists_of_writesStatement hs).append (lists_of_writesStatements h)

theorem lists_of_writesStatement : ∀ {ls : List Lexeme} {s : Statement},
    g.WritesStatement ls s → g.Lists ls s.listed
  | _, _, .content => .cons (announces_content _ _) .nil
  | _, _, .comment => .cons (announces_comment _ _) .nil
  | _, _, .plain h => lists_mustache h rfl rfl
  | _, _, .unescaped h => lists_mustache h rfl rfl
  | _, _, .inclusion h => lists_of_tag (inner_of_writesCall h) rfl rfl rfl nofun nofun
  | _, _, .rawBlock hcall hbody hblock => by
      obtain rfl := Builder.eq_of_rawBlock hblock
      rw [Statement.listed, Section.listed, Section.listed, Program.listed, List.append_nil]
      exact .cons (announces_of_place rfl rfl nofun nofun)
        ((Lists.of_inner (inner_of_writesCall hcall)).append
          (.skip rfl ((lists_of_writesContents hbody).behind rfl)))
  | _, _, @WritesStatement.block _ inverted _ _ _ _ _ _ _ _ _ hhead hbody hother htail hblock => by
      obtain ⟨decorator, inverse, hinverse, hperm⟩ := listed_of_block hblock
      have hinside := (lists_of_writesStatements hbody).append
        ((lists_of_writesSection hother hinverse).append (lists_of_writesClosing htail))
      rw [List.append_nil] at hinside
      refine (lists_of_writesOpening hhead ?_ (loc_of_block hblock)
        (kind_of_block_ne hblock nofun nofun) (kind_of_block_ne hblock nofun nofun) hinside).perm
        hperm
      rw [Builder.kind_of_block hblock]
      cases inverted <;> rfl
  | _, _, .inclusionBlock hhead hbody htail hblock => by
      obtain rfl := Builder.eq_of_inclusionBlock hblock
      have hinside := (lists_of_writesStatements hbody).append (lists_of_writesClosing htail)
      rw [List.append_nil] at hinside
      exact lists_of_writesOpening hhead rfl rfl nofun nofun hinside

theorem lists_of_writesSection : ∀ {chains : Bool} {ls : List Lexeme} {other : Option ElseSection},
    g.WritesSection chains ls other → ∀ {inverse : Option Program} {decorator : Bool}
      {closing : Strip} {loc : Location},
      Builder.inverseProgram decorator closing loc other = .ok inverse →
      g.Lists ls (Section.listed inverse)
  | _, _, _, .none, _, _, _, _, h => by
      cases h
      exact .nil
  | _, _, _, .plain hbody, _, _, _, _, h => by
      obtain rfl := Builder.eq_of_inverseProgram rfl h
      exact .skip rfl (lists_of_writesStatements hbody)
  | _, _, _, .link hhead hbody hother hblock, _, _, _, _, h => by
      obtain ⟨q, hq, rfl⟩ := Builder.closeChain_of_inverseProgram rfl h
      obtain ⟨node, loc, rfl, rfl⟩ := exists_of_closeChain hq
      obtain ⟨decorator, inverse, hinverse, hperm⟩ := listed_of_block hblock
      have hinside := (lists_of_writesStatements hbody).append
        (lists_of_writesSection hother hinverse)
      have hkind := Builder.kind_of_block hblock
      have hlink := (lists_of_writesOpening hhead (congrArg some hkind.symm) (loc_of_block hblock)
        nofun nofun hinside).perm hperm
      rw [Section.listed, Program.listed, Body.listed, Body.listed, List.append_nil]
      exact hlink.closed _

end

/-! ## Whole templates -/

/-- Places lie one behind the other. -/
def Advance (p q : Position) : Prop := p ≤ q ∧ p ≠ q

variable (g) in
/-- The tokens start in places of their own, one behind the other. -/
def Ordered (ls : List Lexeme) : Prop :=
  (ls.map fun l => Source.position g.text l.span.start).Pairwise Advance

/-- Statements start where the tokens that begin them do. -/
theorem starts_of_announces {own : List Lexeme} (h : List.Forall₂ g.Announces own ss) :
    ss.map (fun s => s.loc.start) = own.map fun l => Source.position g.text l.span.start := by
  induction h with
  | nil => rfl
  | cons hl _ ih => rw [List.map_cons, List.map_cons, hl.start, ih]

theorem announced_of_writesProgram {p : Program} (h : g.WritesProgram ls p) :
    ∃ own : List Lexeme, own.Perm (beginnings ls) ∧ List.Forall₂ g.Announces own p.byLocation ∧
      (g.Ordered (beginnings ls) → own = beginnings ls) := by
  have hlists : g.Lists ls p.listed := by
    cases h with
    | mk hbody => exact lists_of_writesStatements hbody
  by_cases horder : g.Ordered (beginnings ls)
  · obtain ⟨ss, hbegins, hss⟩ : Relation.Comp (List.Forall₂ g.Announces) List.Perm (beginnings ls)
        p.listed := by
      rw [List.forall₂_comp_perm_eq_perm_comp_forall₂]
      exact hlists
    have hstarts : (ss.map fun s => s.loc.start).Pairwise Advance := by
      rw [starts_of_announces hbegins]
      exact horder
    rw [Program.byLocation_eq hss (List.pairwise_map.mp hstarts)]
    exact ⟨beginnings ls, .refl _, hbegins, fun _ => rfl⟩
  · obtain ⟨own, hperm, hbegins⟩ := hlists.perm p.byLocation_perm.symm
    exact ⟨own, hperm.symm, hbegins, fun h => absurd h horder⟩

/-- The tokens of a template start one behind the other. -/
theorem ordered_beginnings (o : Options) (text : Text) :
    (o.grammar text).Ordered (beginnings (tokenize o.brackets.isList text).lexemes) := by
  obtain ⟨hslices, hordered, -⟩ := tokenize_tiles o.brackets.isList text
  have hlater : (tokenize o.brackets.isList text).lexemes.Pairwise fun x y =>
      x.span.start < y.span.start :=
    hordered.imp_of_mem fun {x y} hx _ hxy => by
      obtain ⟨u, w, v, -, hw, hspan, -⟩ := hslices x hx
      refine Nat.lt_of_lt_of_le ?_ hxy
      rw [hspan, Text.byteLength_append]
      exact Nat.lt_add_of_pos_right (Nat.pos_of_ne_zero (mt Text.eq_nil_of_byteLength hw))
  have hboundary (x : Lexeme) (hx : x ∈ (tokenize o.brackets.isList text).lexemes) :
      Source.Boundary text x.span.start := by
    obtain ⟨u, w, v, htext, -, hspan, -⟩ := hslices x hx
    exact ⟨u, w ++ v, htext, by rw [hspan]⟩
  refine List.pairwise_map.mpr
    (List.Pairwise.filter _ (hlater.imp_of_mem fun {x y} hx hy hxy => ?_))
  refine ⟨Source.position_le_position text (Nat.le_of_lt hxy), fun heq => ?_⟩
  have hoffset := congrArg (Source.offset text) heq
  rw [Options.grammar, Source.offset_position (hboundary x hx),
    Source.offset_position (hboundary y hy)] at hoffset
  exact absurd (Option.some.inj hoffset) (Nat.ne_of_lt hxy)

/-- **No text and no tag is lost or doubled on the way into the tree.**  In the order of their
locations, all statements of the tree have tokens that begin them.  These are all the tokens that
can begin a statement, each of them once.  If the tokens start one behind the other, the order
is that of the tokens. -/
theorem announced_of_parse {p : Program} (h : g.parse ls = .ok p) :
    ∃ own : List Lexeme, own.Perm (beginnings ls) ∧ List.Forall₂ g.Announces own p.byLocation ∧
      (g.Ordered (beginnings ls) → own = beginnings ls) :=
  announced_of_writesProgram (parse_eq_ok_iff.mp h)

/-- The template `{{^a}}x{{else}}y{{/a}}`, whose sections change places in the tree. -/
def invertedText : Text := "\x7b\x7b^a\x7d\x7dx\x7b\x7belse\x7d\x7dy\x7b\x7b/a\x7d\x7d".toList

/-- The block and its two texts begin with three tokens. -/
theorem announced_inverted : ∃ p own,
    (Options.grammar {} invertedText).parse (tokenize false invertedText).lexemes = .ok p ∧
    own.Perm (beginnings (tokenize false invertedText).lexemes) ∧
    List.Forall₂ (Options.grammar {} invertedText).Announces own p.byLocation ∧
    own.map Lexeme.token =
      [.opener .inverse "\x7b\x7b^".toList, .content "x".toList, .content "y".toList] := by
  obtain ⟨p, hp⟩ : ∃ p, (Options.grammar {} invertedText).parse
      (tokenize false invertedText).lexemes = .ok p := ⟨_, by cbv⟩
  obtain ⟨own, hperm, hbegins, horder⟩ := announced_of_parse hp
  refine ⟨p, own, hp, hperm, hbegins, ?_⟩
  rw [horder (ordered_beginnings {} invertedText)]
  cbv

end Grammar

/-- All statements of an accepted template, in the order of their locations, begin with the tokens
that can begin one, in the order of the source. -/
theorem announced_of_parseRaw {o : Options} {text : Text} {p : Program}
    (h : parseRaw o text = .ok p) :
    List.Forall₂ (o.grammar text).Announces (beginnings (tokenize o.brackets.isList text).lexemes)
      p.byLocation := by
  obtain ⟨own, -, hbegins, horder⟩ :=
    Grammar.announced_of_writesProgram (writesProgram_of_parseRaw h)
  exact horder (Grammar.ordered_beginnings o text) ▸ hbegins

end Stache
