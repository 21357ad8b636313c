import Stache.Proofs.Grammar.ClosingNames
import Stache.Proofs.Grammar.Earlier
import Stache.Proofs.Grammar.ReadBack

/-!
# What opens a block

The builder asks for a path in the opening tag of a block when it compares it with the closing
tag.  So every block that has a closing tag is opened with a path, at any depth, and one that is
not is refused once the grammar has read it (`opened_of_parseRaw`).

A link of an else chain has no closing tag.  Nothing is compared there, and any expression may
stand behind its `else`.
-/

namespace Stache

theorem Builder.checkClose_eq_error {opened : Expr} {closed : Option Text}
    {closedAt : Option Location} (h : ∀ p, opened ≠ .path p) :
    checkClose opened closed closedAt = .error (.openNotPath opened.loc closedAt) := by
  cases opened with
  | path p => exact absurd rfl (h p)
  | sub | string | number | boolean | undefined | null | array | hash => rfl

namespace Grammar

variable {g : Grammar} {own ls ls' ls'' : List Lexeme} {called : Call} {e : BuildError}

/-! ## Blocks that are refused -/

variable (g) in
/-- The tokens of a block, a raw block or a partial with a body that invokes `called`, as the
grammar reads them.  The builder has not seen the block yet. -/
inductive WritesBlock : List Lexeme → Call → Prop where
  | raw {s s' s'' : Span} {ls ls' : List Lexeme} {called : Call} {body : List Statement}
      {name : Text} (hcall : g.WritesCall ls called) (hbody : g.WritesContents ls' body) :
      WritesBlock
        (⟨.rawOpener, s⟩ :: (ls ++ ⟨.rawCloser, s'⟩ :: (ls' ++ [⟨.rawEnd name, s''⟩]))) called
  | block {inverted : Bool} {ls ls' ls'' ls''' : List Lexeme} {head : BlockOpening}
      {body : List Statement} {other : Option ElseSection} {tail : BlockClosing}
      (hhead : g.WritesOpening (if inverted then .inverse else .block) ls head)
      (hbody : g.WritesStatements ls' body) (hother : g.WritesSection (!inverted) ls'' other)
      (htail : g.WritesClosing ls''' tail) :
      WritesBlock (ls ++ (ls' ++ (ls'' ++ ls'''))) head.call
  | inclusion {ls ls' ls'' : List Lexeme} {head : BlockOpening} {body : List Statement}
      {tail : BlockClosing} (hhead : g.WritesOpening .inclusionBlock ls head)
      (hbody : g.WritesStatements ls' body) (htail : g.WritesClosing ls'' tail) :
      WritesBlock (ls ++ (ls' ++ ls'')) head.call

theorem writesBlock_of_writesStatement {s : Statement} (h : g.WritesStatement own s)
    (hs : s.opened? = some called) : g.WritesBlock own called := by
  cases h with
  | content | comment | inclusion => cases hs
  | plain h | unescaped h =>
      obtain ⟨escaped, hm | hm⟩ := g.builder.exists_of_mustache _ _ _ _ <;>
        rw [hm] at hs <;> cases hs
  | rawBlock hcall hbody hblock =>
      obtain ⟨_, -, hnode⟩ := exists_of_bind_eq_ok hblock
      cases hnode
      cases hs
      exact .raw hcall hbody
  | block hhead hbody hother htail hblock =>
      obtain ⟨_, _, node, -, hnode, rfl⟩ := Builder.exists_of_block hblock
      rcases hnode with rfl | rfl <;> cases hs <;> exact .block hhead hbody hother htail
  | inclusionBlock hhead hbody htail hblock =>
      obtain rfl := Builder.eq_of_inclusionBlock hblock
      cases hs
      exact .inclusion hhead hbody htail

/-- A statement starts with the tokens, and the builder refuses it. -/
structure Refuses (g : Grammar) (e : BuildError) (own : List Lexeme) : Prop where
  starts : ∃ t ts, tokensOf own = t :: ts ∧ t.startsStatement = true
  rejects : ∀ ⦃c c' : Cursor⦄, c.Reads own c' → Rejects (statement g c) e

theorem exists_startsStatement {kind : Opener} {head : BlockOpening}
    (h : g.WritesOpening kind ls head) (hkind : (Token.opener kind []).startsStatement = true)
    (ls' : List Lexeme) :
    ∃ t ts, tokensOf (ls ++ ls') = t :: ts ∧ t.startsStatement = true := by
  cases h with
  | mk => exact ⟨_, _, rfl, hkind⟩

theorem refuses_raw {s s' s'' : Span} {body : List Statement} {name : Text}
    (hcall : g.WritesCall ls called) (hbody : g.WritesContents ls' body)
    (hhead : ∀ p, called.head ≠ .path p) :
    g.Refuses (.openNotPath called.head.loc none)
      (⟨.rawOpener, s⟩ :: (ls ++ ⟨.rawCloser, s'⟩ :: (ls' ++ [⟨.rawEnd name, s''⟩]))) := by
  refine ⟨⟨_, _, rfl, rfl⟩, fun c c' hreads => (settles_rawBlock hcall hbody hreads).rejects ?_⟩
  rw [Builder.rawBlock, Builder.checkClose_eq_error hhead]
  rfl

theorem refuses_block {inverted : Bool} {ls₃ : List Lexeme} {head : BlockOpening}
    {body : List Statement} {other : Option ElseSection} {tail : BlockClosing}
    (hopening : g.WritesOpening (if inverted then .inverse else .block) ls head)
    (hbody : g.WritesStatements ls' body) (hother : g.WritesSection (!inverted) ls'' other)
    (htail : g.WritesClosing ls₃ tail) (hhead : ∀ p, head.call.head ≠ .path p) :
    ∃ closedAt, g.Refuses (.openNotPath head.call.head.loc closedAt)
      (ls ++ (ls' ++ (ls'' ++ ls₃))) := by
  obtain ⟨name, hname⟩ : ∃ name, tail.path = some name := by
    cases htail with
    | mk => exact ⟨_, rfl⟩
  refine ⟨some name.loc, exists_startsStatement hopening (by cases inverted <;> rfl) _,
    fun c c' hreads => (settles_block inverted hopening (exact_of_writesStatements hbody)
      (exact_of_writesSection hother) hother htail hreads).rejects ?_⟩
  rw [Builder.block]
  simp only [Option.bind_some, hname, Builder.checkClose_eq_error hhead]
  rfl

theorem refuses_inclusion {head : BlockOpening} {body : List Statement} {tail : BlockClosing}
    (hopening : g.WritesOpening .inclusionBlock ls head) (hbody : g.WritesStatements ls' body)
    (htail : g.WritesClosing ls'' tail) (hhead : ∀ p, head.call.head ≠ .path p) :
    g.Refuses (.openNotPath head.call.head.loc none) (ls ++ (ls' ++ ls'')) := by
  refine ⟨exists_startsStatement hopening rfl _, fun c c' hreads =>
    (settles_inclusionBlock hopening (exact_of_writesStatements hbody) htail hreads).rejects ?_⟩
  rw [Builder.inclusionBlock, Builder.checkClose_eq_error hhead]
  rfl

/-- **A block that is not opened with a path is refused** once it is read. -/
theorem refuses_of_writesBlock (h : g.WritesBlock own called) (hhead : ∀ p, called.head ≠ .path p) :
    ∃ closedAt, g.Refuses (.openNotPath called.head.loc closedAt) own := by
  cases h with
  | raw hcall hbody => exact ⟨none, refuses_raw hcall hbody hhead⟩
  | block hopening hbody hother htail => exact refuses_block hopening hbody hother htail hhead
  | inclusion hopening hbody htail => exact ⟨none, refuses_inclusion hopening hbody htail hhead⟩

/-- A statement that opens a block has a path there. -/
theorem exists_path_of_writesStatement {s : Statement} (h : g.WritesStatement own s)
    (hs : s.opened? = some called) : ∃ p, called.head = .path p := by
  refine Classical.byContradiction fun hnone => ?_
  obtain ⟨closedAt, hrefuses⟩ := refuses_of_writesBlock (writesBlock_of_writesStatement h hs)
    fun p hp => hnone ⟨p, hp⟩
  have hreads : Cursor.Reads ⟨⟨0, 0⟩, own⟩ own ⟨endOf ⟨0, 0⟩ own, []⟩ :=
    ⟨(List.append_nil own).symm, rfl⟩
  obtain ⟨_, hok⟩ := exact_of_writesStatement h hreads trivial
  cases hok.symm.trans (hrefuses.rejects hreads)

/-- A chained program holds a link and nothing else. -/
theorem exists_link {q : Program} (h : g.WritesNode own (.program q)) (hq : q.chained = true) :
    ∃ node, q.body = [.block node] := by
  generalize hn : Node.program q = n at h
  cases h with
  | program | contents =>
      cases hn
      cases hq
  | chained =>
      cases hn
      exact ⟨_, rfl⟩
  | expr | hash | hashPair | statement | link => cases hn

/-! ## What stands in front -/

variable (g)

mutual

/-- The tokens stand in front of a statement: from the start of some statements to one of them,
or to a statement in one of them. -/
inductive Leads : List Lexeme → Prop where
  | here : Leads []
  | behind {ls ls' : List Lexeme} {s : Statement} (hs : g.WritesStatement ls s) (h : Leads ls') :
      Leads (ls ++ ls')
  | body {inverted : Bool} {ls ls' : List Lexeme} {head : BlockOpening}
      (hhead : g.WritesOpening (if inverted then .inverse else .block) ls head) (h : Leads ls') :
      Leads (ls ++ ls')
  | inclusionBody {ls ls' : List Lexeme} {head : BlockOpening}
      (hhead : g.WritesOpening .inclusionBlock ls head) (h : Leads ls') : Leads (ls ++ ls')
  | elseBody {inverted : Bool} {ls ls' ls'' : List Lexeme} {head : BlockOpening}
      {body : List Statement}
      (hhead : g.WritesOpening (if inverted then .inverse else .block) ls head)
      (hbody : g.WritesStatements ls' body) (h : LeadsElse (!inverted) ls'') :
      Leads (ls ++ (ls' ++ ls''))

/-- The same from the start of an else section.  The flag says that it may be the next link of a
chain. -/
inductive LeadsElse : Bool → List Lexeme → Prop where
  | plain {chains : Bool} {text : Text} {s : Span} {ls : List Lexeme} (h : Leads ls) :
      LeadsElse chains (⟨.elseTag text, s⟩ :: ls)
  | link {ls ls' : List Lexeme} {head : BlockOpening} (hhead : g.WritesOpening .chain ls head)
      (h : Leads ls') : LeadsElse true (ls ++ ls')
  | later {ls ls' ls'' : List Lexeme} {head : BlockOpening} {body : List Statement}
      (hhead : g.WritesOpening .chain ls head) (hbody : g.WritesStatements ls' body)
      (h : LeadsElse true ls'') : LeadsElse true (ls ++ (ls' ++ ls''))

end

variable {g}

/-- Statements are refused if the first one is. -/
theorem rejects_statements {c : Cursor} {t : Token} {ts : List Token} (hstart : c.tokens = t :: ts)
    (ht : t.startsStatement = true) (h : Rejects (statement g c) e) :
    Rejects (statements g c) e := by
  have hgo : c.peek?.any Token.startsStatement = true := by
    rw [Cursor.peek?_eq, hstart]
    exact ht
  rw [statements, if_pos hgo]
  exact h.bind

theorem fronts_leadsElse {chains : Bool} {front : List Lexeme} (h : g.LeadsElse chains front)
    (rest : List Token) : Fronts Token.endsBody (tokensOf front ++ rest) := by
  cases h with
  | plain => exact .cons rfl
  | link hhead | later hhead =>
      cases hhead with
      | mk => exact .cons rfl

/-- Behind the opening tag of a block its body is refused, or what stands behind the body. -/
theorem rejects_behind_opening {inverted : Bool} {head : BlockOpening}
    (hhead : g.WritesOpening (if inverted then .inverse else .block) ls head) {c c₂ : Cursor}
    (hfront : c.Reads ls c₂) (h : Rejects (statements g c₂) e ∨
      ∃ body c₃, Returns (statements g c₂) body c₃ ∧ Rejects (section? g (!inverted) c₃) e) :
    Rejects (statements g c) e := by
  cases inverted with
  | false | true =>
      obtain ⟨span, c₁, hopen, hopening⟩ := exact_opening true (by decide) hhead hfront
      obtain ⟨hlt, hnext⟩ := hopen.next?
      refine rejects_statements hopen.tokens_eq rfl ?_
      rw [statement]
      simp only [hnext]
      refine hopening.rejects fun _ => .commit ?_
      rcases h with hbody | ⟨body, c₃, hbody, hother⟩
      · exact hbody.bind
      · exact hbody.rejects fun _ => hother.bind

mutual

/-- A refusal is passed on to the statements around it. -/
theorem rejects_of_leads (hown : g.Refuses e own) : ∀ {front : List Lexeme}, g.Leads front →
    ∀ {c c' : Cursor}, c.Reads (front ++ own) c' → Rejects (statements g c) e
  | _, .here, c, _, hreads => by
      obtain ⟨t, ts, hts, ht⟩ := hown.starts
      have hstart := hreads.tokens_eq
      rw [List.nil_append, hts] at hstart
      exact rejects_statements hstart ht (hown.rejects hreads)
  | _, .behind hs h, c, _, hreads => by
      rw [List.append_assoc] at hreads
      obtain ⟨c₁, hfirst, hreads⟩ := hreads.exists_append
      have hgo : c.peek?.any Token.startsStatement = true := by
        obtain ⟨t, ts, hts, ht⟩ := exists_of_statement (derives_of_writesStatement hs)
        rw [Cursor.peek?_eq, hfirst.tokens_eq, hts]
        exact ht
      rw [statements, if_pos hgo]
      exact (exact_of_writesStatement hs hfirst trivial).rejects fun _ =>
        (rejects_of_leads hown h hreads).bind
  | _, .body hhead h, c, _, hreads => by
      rw [List.append_assoc] at hreads
      obtain ⟨c₂, hfront, hreads⟩ := hreads.exists_append
      exact rejects_behind_opening hhead hfront (.inl (rejects_of_leads hown h hreads))
  | _, .inclusionBody hhead h, c, _, hreads => by
      rw [List.append_assoc] at hreads
      obtain ⟨c₂, hfront, hreads⟩ := hreads.exists_append
      obtain ⟨span, c₁, hopen, hopening⟩ := exact_opening false (by decide) hhead hfront
      obtain ⟨hlt, hnext⟩ := hopen.next?
      refine rejects_statements hopen.tokens_eq rfl ?_
      rw [statement]
      simp only [hnext]
      exact hopening.rejects fun _ => .commit (rejects_of_leads hown h hreads).bind
  | _, .elseBody hhead hbody h, c, _, hreads => by
      rw [List.append_assoc, List.append_assoc] at hreads
      obtain ⟨c₂, hfront, hreads⟩ := hreads.exists_append
      obtain ⟨c₃, hmain, hreads⟩ := hreads.exists_append
      have hends : Fronts Token.endsBody c₃.tokens := by
        rw [hreads.tokens_eq, tokensOf_append, List.append_assoc]
        exact fronts_leadsElse h _
      exact rejects_behind_opening hhead hfront
        (.inr ⟨_, c₃, exact_of_writesStatements hbody hmain hends, rejects_of_leadsElse hown h hreads⟩)

theorem rejects_of_leadsElse (hown : g.Refuses e own) : ∀ {chains : Bool} {front : List Lexeme},
    g.LeadsElse chains front → ∀ {c c' : Cursor}, c.Reads (front ++ own) c' →
      Rejects (section? g chains c) e
  | _, _, .plain h, c, _, hreads => by
      obtain ⟨c₁, hmark, hreads⟩ := hreads.exists_cons
      obtain ⟨hlt, hnext⟩ := hmark.next?
      rw [section?]
      simp only [hnext]
      exact (rejects_of_leads hown h hreads).bind
  | _, _, .link hhead h, c, _, hreads => by
      rw [List.append_assoc] at hreads
      obtain ⟨c₂, hfront, hreads⟩ := hreads.exists_append
      obtain ⟨span, c₁, hopen, hopening⟩ := exact_opening true (by decide) hhead hfront
      obtain ⟨hlt, hnext⟩ := hopen.next?
      rw [section?]
      simp only [hnext, if_true]
      exact hopening.rejects fun _ => .commit (rejects_of_leads hown h hreads).bind
  | _, _, .later hhead hbody h, c, _, hreads => by
      rw [List.append_assoc, List.append_assoc] at hreads
      obtain ⟨c₂, hfront, hreads⟩ := hreads.exists_append
      obtain ⟨c₃, hmain, hreads⟩ := hreads.exists_append
      have hends : Fronts Token.endsBody c₃.tokens := by
        rw [hreads.tokens_eq, tokensOf_append, List.append_assoc]
        exact fronts_leadsElse h _
      obtain ⟨span, c₁, hopen, hopening⟩ := exact_opening true (by decide) hhead hfront
      obtain ⟨hlt, hnext⟩ := hopen.next?
      rw [section?]
      simp only [hnext, if_true]
      refine hopening.rejects fun _ => .commit ?_
      refine (exact_of_writesStatements hbody hmain hends).rejects fun _ => ?_
      exact (rejects_of_leadsElse hown h hreads).bind

end

/-- A block that is not opened with a path is the end of the template, whatever follows it. -/
theorem parse_eq_error {front : List Lexeme} (hfront : g.Leads front) (hown : g.Refuses e own)
    (after : List Lexeme) : g.parse (front ++ own ++ after) = .error e.diagnostic := by
  have hreads : Cursor.Reads ⟨⟨0, 0⟩, front ++ own ++ after⟩ (front ++ own)
      ⟨endOf ⟨0, 0⟩ (front ++ own), after⟩ := ⟨rfl, rfl⟩
  have hprogram : Rejects (g.program (front ++ own ++ after)) e :=
    (rejects_of_leads hown hfront hreads).bind
  rw [Grammar.parse, hprogram]
  rfl

theorem endsTag_closing {tail : BlockClosing} (h : g.WritesClosing own tail)
    (front : List Lexeme) : ∀ l ∈ (front ++ own).getLast?, l.token.endsTag = true := by
  cases h with
  | @mk opener closer s s' ls =>
      rw [tag, ← List.cons_append, ← List.append_assoc, List.getLast?_concat]
      rintro l ⟨⟩
      rfl

/-- A block ends with a tag. -/
theorem endsTag_of_writesBlock (h : g.WritesBlock own called) (front : List Lexeme) :
    ∀ l ∈ (front ++ own).getLast?, l.token.endsTag = true := by
  cases h with
  | @raw s s' s'' ls ls' _ _ name =>
      have hlast : front ++ ⟨.rawOpener, s⟩ ::
            (ls ++ ⟨.rawCloser, s'⟩ :: (ls' ++ [⟨.rawEnd name, s''⟩])) =
          front ++ ⟨.rawOpener, s⟩ :: (ls ++ ⟨.rawCloser, s'⟩ :: ls') ++
            [⟨.rawEnd name, s''⟩] := by
        simp
      rw [hlast, List.getLast?_concat]
      rintro l ⟨⟩
      rfl
  | block _ _ _ htail | inclusion _ _ htail =>
      simp only [← List.append_assoc]
      exact endsTag_closing htail _

end Grammar

/-- **Blocks are opened with paths.**  In a template that is accepted every block, decorator block
and partial with a body invokes a path, whatever the depth, but for the links of else chains.  And
the template is refused once a block has been read that does not: where such a block stands, with
nothing wrong in front of it, it is reported, whatever follows. -/
theorem opened_of_parseRaw (o : Options) (text : Text) :
    (∀ p q s called, parseRaw o text = .ok p → (Node.program q).Within (.program p) →
      s ∈ q.body → s.opened? = some called →
        (∃ path, called.head = .path path) ∨
          q.chained = true ∧ ∃ node, q.body = [.block node]) ∧
    ∀ front own after called,
      (tokenize o.brackets.isList text).lexemes = front ++ own ++ after →
      (o.grammar text).Leads front → (o.grammar text).WritesBlock own called →
      (∀ path, called.head ≠ .path path) →
        ∃ closedAt d, d = (BuildError.openNotPath called.head.loc closedAt).diagnostic ∧
          parseRaw o text = .error (.one d) ∧ d.code.map Code.id = some "E202" := by
  constructor
  · intro p q s called h hq hs hcalled
    cases hchained : q.chained with
    | false =>
        obtain ⟨_, own, _, -, hown⟩ := exists_of_mem_body h hq hchained hs
        exact .inl (Grammar.exists_path_of_writesStatement hown hcalled)
    | true =>
        obtain ⟨_, own, _, -, hown⟩ := Grammar.exists_of_structural
          (Grammar.writesNode_of_writesProgram (writesProgram_of_parseRaw h)) hq trivial
        exact .inr ⟨rfl, Grammar.exists_link hown hchained⟩
  · intro front own after called hls hfront hblock hhead
    obtain ⟨closedAt, hrefuses⟩ := Grammar.refuses_of_writesBlock hblock hhead
    have hcode := Grammar.code_diagnostic (.openNotPath called.head.loc closedAt)
    refine ⟨closedAt, _, rfl, ?_, by rw [hcode]; rfl⟩
    refine parseRaw_of_finished (Grammar.endsTag_of_writesBlock hblock front) ⟨after, hls.symm⟩
      (Grammar.parse_eq_error hfront hrefuses) ?_
    rw [hcode]
    nofun

/-- The template `{{#a}}{{else "b"}}{{/a}}`. -/
def quotedLink : Text := "\x7b\x7b#a\x7d\x7d\x7b\x7belse \x22b\x22\x7d\x7d\x7b\x7b/a\x7d\x7d".toList

/-- The template `{{#a}}{{#"b"}}{{/b}}{{!`. -/
def quotedBlock : Text :=
  "\x7b\x7b#a\x7d\x7d\x7b\x7b#\x22b\x22\x7d\x7d\x7b\x7b/b\x7d\x7d\x7b\x7b!".toList

/-- The first template is accepted with its link, and the second one is refused for the block in
it, not for the comment without an end. -/
theorem opened_quotedLink_quotedBlock :
    (∃ p, parseRaw {} quotedLink = .ok p ∧ ∀ q s called, (Node.program q).Within (.program p) →
      s ∈ q.body → s.opened? = some called →
        (∃ path, called.head = .path path) ∨
          q.chained = true ∧ ∃ node, q.body = [.block node]) ∧
    ∃ closedAt d, d = (BuildError.openNotPath ⟨none, ⟨1, 9⟩, ⟨1, 12⟩⟩ closedAt).diagnostic ∧
      parseRaw {} quotedBlock = .error (.one d) ∧ d.code.map Code.id = some "E202" := by
  obtain ⟨p, hp⟩ : ∃ p, parseRaw {} quotedLink = .ok p := ⟨_, by cbv⟩
  refine ⟨⟨p, hp, fun q s called => (opened_of_parseRaw {} quotedLink).1 p q s called hp⟩, ?_⟩
  have htokens : (tokenize false quotedBlock).lexemes =
      [⟨.opener .block "\x7b\x7b#".toList, ⟨0, 3⟩⟩, ⟨.ident ['a'], ⟨3, 4⟩⟩,
        ⟨.closer "\x7d\x7d".toList, ⟨4, 6⟩⟩] ++
      ([⟨.opener .block "\x7b\x7b#".toList, ⟨6, 9⟩⟩, ⟨.string ['b'], ⟨9, 12⟩⟩,
        ⟨.closer "\x7d\x7d".toList, ⟨12, 14⟩⟩] ++ ([] ++ ([] ++
        [⟨.opener .close "\x7b\x7b/".toList, ⟨14, 17⟩⟩, ⟨.ident ['b'], ⟨17, 18⟩⟩,
          ⟨.closer "\x7d\x7d".toList, ⟨18, 20⟩⟩]))) ++ [] := by
    cbv
  refine (opened_of_parseRaw {} quotedBlock).2 _ _ _
    ⟨.string ['b'] ['b'] ⟨none, ⟨1, 9⟩, ⟨1, 12⟩⟩, [], none⟩ htokens ?_ ?_ ?_
  · exact .body (show Grammar.WritesOpening _ (if false then .inverse else .block) _ _ from
      .mk (.mk (.path (.mk .nil) (by rfl)) .nil .nil) .none (by decide)) .here
  · exact .block (show Grammar.WritesOpening _ (if false then .inverse else .block) _ _ from
      .mk (.mk .string .nil .nil) .none (by decide)) .nil .none (.mk (.path (.mk .nil) (by rfl)))
  · intro path h; cases h

/-- A link of an else chain may be opened with a string. -/
theorem opened_link_ne : ¬∀ (text : Text) (p q : Program) (s : Statement) (called : Call),
    parseRaw {} text = .ok p → (Node.program q).Within (.program p) → s ∈ q.body →
      s.opened? = some called → ∃ path, called.head = .path path := by
  intro hall
  obtain ⟨p, node, q, link, value, loc, hp, hbody, hinverse, hlink, hhead⟩ :
      ∃ p node q link value loc, parseRaw {} quotedLink = .ok p ∧ p.body = [.block node] ∧
        node.inverse = some q ∧ q.body = [.block link] ∧
        link.call.head = .string value value loc :=
    ⟨_, _, _, _, _, _, by cbv, by rfl, by rfl, by rfl, by rfl⟩
  have hblock : Node.statement (.block node) ∈ (Node.program p).parts := by
    simp [Node.parts, Node.ordered, Program.nodes, hbody]
  have hsection : Node.program q ∈ (Node.statement (.block node)).parts := by
    simp [Node.parts, Node.sections, hinverse]
  have hmem : Statement.block link ∈ q.body := by
    rw [hlink]
    exact List.mem_singleton_self _
  obtain ⟨path, hpath⟩ :=
    hall quotedLink p q (.block link) link.call hp (.part hsection (.part hblock .refl)) hmem rfl
  cases hhead.symm.trans hpath

end Stache
