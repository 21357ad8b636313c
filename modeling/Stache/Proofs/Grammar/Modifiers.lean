import Stache.Proofs.Grammar.Follows
import Stache.Proofs.Grammar.Links
import Stache.Proofs.Grammar.Listing
import Stache.Proofs.Token.Modifiers

/-!
# Markers and modifiers in the tree

The tree remembers how each tag was written: its `~` markers, whether its value is
escaped, and whether it is a decorator.  `MarksStatements ls body` goes through some
tokens and the statements that they write, tag by tag, and says that what the tree
has for a tag is what stands in the source text of the tag.

Two tags share their markers in the tree.  The opening tag of a link is the else tag of the
block around it, and both have its markers.  What a link has for a closing tag is not
its own, and nothing is said of it.
-/

namespace Stache

/-- The markers are those of the tag `w`: a `~` directly behind its `{{`, and one directly in front
of its `}}`. -/
structure Strip.MarksOf (strip : Strip) (w : Text) : Prop where
  opens : ['{', '{'] <+: w
  closes : ['}', '}'] <:+ w
  before : strip.before = true ↔ ['{', '{', '~'] <+: w
  after : strip.after = true ↔ ['~', '}', '}'] <:+ w

/-- The markers that are read off the delimiters of a tag. -/
theorem Strip.marksOf_ofDelimiters {w opener closer : Text} (hopener : ['{', '{'] <+: opener)
    (hcloser : ['}', '}'] <:+ closer) (hopens : ['{', '{'] <+: w) (hcloses : ['}', '}'] <:+ w)
    (hbefore : ['{', '{', '~'] <+: w ↔ ['{', '{', '~'] <+: opener)
    (hafter : ['~', '}', '}'] <:+ w ↔ ['~', '}', '}'] <:+ closer) :
    (Strip.ofDelimiters opener closer).MarksOf w := by
  refine ⟨hopens, hcloses, ?_, ?_⟩
  · rw [hbefore, ← List.isPrefixOf_iff_prefix]
    exact iff_of_eq (congrArg (· = true) (opensMarked_of_isPrefixOf hopener).symm)
  · rw [hafter, ← List.isSuffixOf_iff_suffix]
    exact iff_of_eq (congrArg (· = true) (closesMarked_of_isSuffixOf hcloser).symm)

/-- The tokens are those of one tag. -/
inductive IsTag : List Lexeme → Prop where
  /-- A comment, an else tag or the end of a raw block. -/
  | alone {x : Lexeme} (hx : x.token.endsTag = true) : IsTag [x]
  | delimited {x y : Lexeme} {inner : List Lexeme} (hinner : Inner inner)
      (hy : y.token.endsTag = true) : IsTag (x :: (inner ++ [y]))

namespace Grammar

variable (g : Grammar)

/-- The source text of some tokens. -/
def textOf (ls : List Lexeme) : Text := g.text.slice (covered ls).start (covered ls).stop

/-- The tokens are those of a tag that starts with the token `t`, and the markers are those of its
source text. -/
structure MarksTag (t : Token) (ls : List Lexeme) (strip : Strip) : Prop where
  first : ls.head?.map Lexeme.token = some t
  tag : IsTag ls
  marks : strip.MarksOf (g.textOf ls)

/-- A tag that writes a value, or a decorator. -/
structure MarksValue (ls : List Lexeme) (node : Mustache) : Prop where
  tag : ∃ kind opener, (kind = .plain ∨ kind = .unescaped) ∧
    g.MarksTag (.opener kind opener) ls node.strip
  escaped : node.escaped = false ↔ (g.textOf ls).OpensWith ['{'] ∨ (g.textOf ls).OpensWith ['&']

mutual

/-- The tags of some statements. -/
inductive MarksStatements : List Lexeme → List Statement → Prop where
  | nil : MarksStatements [] []
  | cons {ls ls' : List Lexeme} {s : Statement} {more : List Statement}
      (hs : MarksStatement ls s) (h : MarksStatements ls' more) :
      MarksStatements (ls ++ ls') (s :: more)

/-- The tags of one statement. -/
inductive MarksStatement : List Lexeme → Statement → Prop where
  | content {t : Text} {s : Span} {c : Content} : MarksStatement [⟨.content t, s⟩] (.content c)
  | comment {t : Text} {ls : List Lexeme} {c : Comment}
      (h : g.MarksTag (.comment t) ls c.strip) : MarksStatement ls (.comment c)
  | mustache {ls : List Lexeme} {node : Mustache} (h : g.MarksValue ls node)
      (hstar : ¬(g.textOf ls).OpensWith ['*']) : MarksStatement ls (.mustache node)
  | decorator {ls : List Lexeme} {node : Mustache} (h : g.MarksValue ls node)
      (hstar : (g.textOf ls).OpensWith ['*']) : MarksStatement ls (.decorator node)
  | inclusion {opener : Text} {ls : List Lexeme} {node : Inclusion}
      (h : g.MarksTag (.opener .inclusion opener) ls node.strip) :
      MarksStatement ls (.inclusion node)
  | block {ls ls' : List Lexeme} {node : Block} (h : MarksBlock ls ls' node)
      (hstar : ¬(g.textOf ls).OpensWith ['#', '*']) : MarksStatement (ls ++ ls') (.block node)
  | decoratorBlock {ls ls' : List Lexeme} {node : Block} (h : MarksBlock ls ls' node)
      (hstar : (g.textOf ls).OpensWith ['#', '*']) :
      MarksStatement (ls ++ ls') (.decoratorBlock node)
  | inclusionBlock {opener closer : Text} {ls ls' ls'' : List Lexeme} {node : InclusionBlock}
      (hopen : g.MarksTag (.opener .inclusionBlock opener) ls node.openStrip)
      (hbody : MarksStatements ls' node.program.body)
      (hclose : g.MarksTag (.opener .close closer) ls'' node.closeStrip) :
      MarksStatement (ls ++ (ls' ++ ls'')) (.inclusionBlock node)

/-- The tags of a block, the opening tag apart from what stands behind it. -/
inductive MarksBlock : List Lexeme → List Lexeme → Block → Prop where
  | main {opener closer : Text} {ls ls' ls'' ls''' : List Lexeme} {node : Block} {main : Program}
      (hopen : g.MarksTag (.opener .block opener) ls node.openStrip)
      (hmain : node.program = some main) (hbody : MarksStatements ls' main.body)
      (hother : MarksSection node.inverseStrip ls'' node.inverse)
      (hclose : g.MarksTag (.opener .close closer) ls''' node.closeStrip) :
      MarksBlock ls (ls' ++ (ls'' ++ ls''')) node
  | inverted {opener closer : Text} {ls ls' ls'' ls''' : List Lexeme} {node : Block}
      {main : Program} (hopen : g.MarksTag (.opener .inverse opener) ls node.openStrip)
      (hmain : node.inverse = some main) (hbody : MarksStatements ls' main.body)
      (hother : MarksSection node.inverseStrip ls'' node.program)
      (hclose : g.MarksTag (.opener .close closer) ls''' node.closeStrip) :
      MarksBlock ls (ls' ++ (ls'' ++ ls''')) node
  | raw {name : Text} {ls ls' ls'' : List Lexeme} {node : Block} {main : Program}
      (hopen : g.MarksTag .rawOpener ls node.openStrip) (hmain : node.program = some main)
      (hbody : MarksStatements ls' main.body) (hother : node.inverse = none)
      (hclose : g.MarksTag (.rawEnd name) ls'' node.closeStrip) :
      MarksBlock ls (ls' ++ ls'') node

/-- The tags of an else section, with the markers that the block around it has for the else tag. -/
inductive MarksSection : Strip → List Lexeme → Option Program → Prop where
  | none : MarksSection {} [] none
  | plain {strip : Strip} {t : Text} {ls ls' : List Lexeme} {p : Program}
      (h : g.MarksTag (.elseTag t) ls strip) (hchained : p.chained = false)
      (hbody : MarksStatements ls' p.body) : MarksSection strip (ls ++ ls') (some p)
  | link {strip : Strip} {opener : Text} {ls ls' ls'' : List Lexeme} {p main : Program}
      {node : Block} (h : g.MarksTag (.opener .chain opener) ls strip)
      (hchained : p.chained = true) (hlink : p.body = [.block node])
      (hopen : node.openStrip = strip) (hstar : ¬(g.textOf ls).OpensWith ['#', '*'])
      (hmain : node.program = some main) (hbody : MarksStatements ls' main.body)
      (hother : MarksSection node.inverseStrip ls'' node.inverse) :
      MarksSection strip (ls ++ (ls' ++ ls'')) (some p)

end

/-! ## Tags of a template -/

variable {g} {square : Bool} {ls ls' : List Lexeme}

theorem infix_left {whole : List Lexeme} (h : ls ++ ls' <:+: whole) : ls <:+: whole :=
  (List.prefix_append ls ls').isInfix.trans h

theorem infix_right {whole : List Lexeme} (h : ls ++ ls' <:+: whole) : ls' <:+: whole :=
  (List.suffix_append ls ls').isInfix.trans h

theorem ne_nil_of_writesExpr {e : Expr} (h : g.WritesExpr ls e) : ls ≠ [] := by
  obtain ⟨t, ts, hts, -⟩ := exists_of_expr (derives_of_writesExpr h)
  rintro rfl
  cases hts

theorem ne_nil_of_writesCall {called : Call} (h : g.WritesCall ls called) : ls ≠ [] := by
  cases h with
  | mk hhead _ _ => exact List.append_ne_nil_of_left_ne_nil (ne_nil_of_writesExpr hhead) _

section

variable {kind : Opener} {opener closer : Text} {t : Token} {s s' : Span} {inner : List Lexeme}

/-- A tag between delimiters. -/
theorem marksTag_of_delimitedBy
    (h : (g.textOf (⟨.opener kind opener, s⟩ :: (inner ++ [⟨t, s'⟩]))).DelimitedBy kind
      opener closer)
    (hinner : Inner inner) (ht : t = .closer closer ∨ t = .unescapedCloser closer) :
    g.MarksTag (.opener kind opener) (⟨.opener kind opener, s⟩ :: (inner ++ [⟨t, s'⟩]))
      (.ofDelimiters opener closer) where
  first := rfl
  tag := .delimited hinner (by rcases ht with rfl | rfl <;> rfl)
  marks := by
    refine Strip.marksOf_ofDelimiters ?_ h.ends h.opens h.closes h.marked h.closed
    obtain ⟨m, -, rfl | rfl⟩ := h.said
    · exact List.prefix_append _ _
    · exact ⟨'~' :: m, rfl⟩

/-- A tag of a template. -/
theorem marksTag_of_tag (hinner : Inner inner) (hne : inner ≠ [])
    (h : tag kind opener s inner closer s' <:+: (tokenize square g.text).lexemes) :
    g.MarksTag (.opener kind opener) (tag kind opener s inner closer s')
      (.ofDelimiters opener closer) :=
  marksTag_of_delimitedBy (delimitedBy_of_tokenize h hinner hne (.inl rfl)) hinner (.inl rfl)

/-- The modifiers of a value are read off its delimiter. -/
theorem modifiers_of_value {m : Text} (hkind : kind = .plain ∨ kind = .unescaped)
    (hsaid : kind.Says m) (hopener : opener = ['{', '{'] ++ m ∨ opener = ['{', '{', '~'] ++ m) :
    ((Builder.modifier? opener != some '{' && Builder.modifier? opener != some '&') = false ↔
      opener.OpensWith ['{'] ∨ opener.OpensWith ['&']) ∧
    (opener.contains '*' = true ↔ opener.OpensWith ['*']) := by
  have hm : m ∈ [[], ['&'], ['*'], ['{']] := by
    rcases hkind with rfl | rfl
    · exact List.mem_append_left [['{']] hsaid
    · rw [show m = ['{'] from hsaid]
      decide
  revert opener
  simp only [List.mem_cons, List.not_mem_nil, or_false] at hm
  rcases hm with rfl | rfl | rfl | rfl <;> rintro _ (rfl | rfl) <;> decide

/-- A star makes the delimiter of a block one of a decorator. -/
theorem starred_block_iff {m : Text} (hsaid : Opener.block.Says m)
    (hopener : opener = ['{', '{'] ++ m ∨ opener = ['{', '{', '~'] ++ m) :
    opener.contains '*' = true ↔ opener.OpensWith ['#', '*'] := by
  have hm : m = ['#'] ∨ m = ['#', '*'] := by
    simpa only [Opener.Says, List.mem_cons, List.not_mem_nil, or_false] using hsaid
  revert opener
  rcases hm with rfl | rfl <;> rintro _ (rfl | rfl) <;> decide

theorem not_opensWith_of_not_mem (h : '*' ∉ opener) : ¬opener.OpensWith ['#', '*'] := by
  have hmem {w : Text} (hw : w <+: opener) (hstar : '*' ∈ w) : False := h (hw.subset hstar)
  rintro (hw | hw)
  · exact hmem hw (by decide)
  · exact hmem hw (by decide)

end

/-- The source text of one token is what it is read off. -/
theorem exists_spells_textOf {x : Lexeme} (hx : x ∈ (tokenize square g.text).lexemes) :
    ∃ v, x.token.Spells (g.textOf [x]) v := by
  obtain ⟨u, w, v, htext, -, hspan, hspells⟩ := (tokenize_tiles square g.text).1 x hx
  refine ⟨v, ?_⟩
  rw [textOf, covered, endOf, hspan, htext, Text.slice_append]
  exact hspells

/-- A comment or an else tag, which is one token. -/
theorem marksTag_of_token {t : Token} {w : Text} {s : Span}
    (ht : t = .comment w ∨ t = .elseTag w) (h : [⟨t, s⟩] <:+: (tokenize square g.text).lexemes) :
    g.MarksTag t [⟨t, s⟩] (.ofDelimiters w w) := by
  have hx : ⟨t, s⟩ ∈ (tokenize square g.text).lexemes := h.subset (List.mem_singleton_self _)
  obtain ⟨v, hspells⟩ := exists_spells_textOf hx
  have hdelimited := delimited_tokenize square g.text _ hx
  obtain ⟨htext, hopen, hclose⟩ :
      g.textOf [⟨t, s⟩] = w ∧ ['{', '{'] <+: w ∧ ['}', '}'] <:+ w := by
    rcases ht with rfl | rfl <;> exact ⟨hspells, hdelimited⟩
  refine ⟨rfl, .alone (by rcases ht with rfl | rfl <;> rfl), ?_⟩
  rw [htext]
  exact Strip.marksOf_ofDelimiters hopen hclose hopen hclose .rfl .rfl

/-- The text has no markers at its ends. -/
theorem marksOf_raw {w u v : Text} (hopen : w = ['{', '{', '{', '{'] ++ u)
    (hclose : w = v ++ ['}', '}', '}', '}']) : Strip.MarksOf {} w := by
  refine ⟨?_, ?_, iff_of_false nofun ?_, iff_of_false nofun ?_⟩
  · exact hopen ▸ List.prefix_append_of_prefix ⟨_, rfl⟩
  · exact hclose ▸ ⟨v ++ ['}', '}'], by simp⟩
  · rw [hopen]
    rintro ⟨r, hr⟩
    cases hr
  · rw [hclose, ← List.reverse_prefix]
    rintro ⟨r, hr⟩
    simp at hr

/-- The opening tag of a raw block. -/
theorem marksTag_of_rawOpener {s s' : Span} {inner : List Lexeme}
    (h : ⟨.rawOpener, s⟩ :: (inner ++ [⟨.rawCloser, s'⟩]) <:+: (tokenize square g.text).lexemes)
    (hinner : Inner inner) :
    g.MarksTag .rawOpener (⟨.rawOpener, s⟩ :: (inner ++ [⟨.rawCloser, s'⟩])) {} ∧
      ¬(g.textOf (⟨.rawOpener, s⟩ :: (inner ++ [⟨.rawCloser, s'⟩]))).OpensWith ['#', '*'] := by
  obtain ⟨before, behind, hlexemes⟩ := h
  rw [List.append_assoc] at hlexemes
  have hrawCloser : Token.rawCloser.ofTag = true := rfl
  obtain ⟨u, w, v, after, htext, hin, hcovered⟩ :=
    (InOneTag.cons rfl (hinner.inOneTag_append hrawCloser)).exists_inTag hlexemes.symm
  obtain ⟨_, more, hopen, rfl, -⟩ := hin.exists_spells (congrArg Span.start hcovered)
  rw [← List.cons_append] at hin
  obtain ⟨_, front, hclose, rfl⟩ := hin.exists_spells_last
  have hw : g.textOf (⟨.rawOpener, s⟩ :: (inner ++ [⟨.rawCloser, s'⟩])) = w := by
    rw [textOf, hcovered, htext, Text.slice_append]
  refine ⟨⟨rfl, .delimited hinner rfl, hw.symm ▸ marksOf_raw hopen hclose⟩, ?_⟩
  rw [hw, hopen]
  rintro (⟨r, hr⟩ | ⟨r, hr⟩) <;> cases hr

/-- The end of a raw block. -/
theorem marksTag_of_rawEnd {name : Text} {s : Span}
    (h : [⟨.rawEnd name, s⟩] <:+: (tokenize square g.text).lexemes) :
    g.MarksTag (.rawEnd name) [⟨.rawEnd name, s⟩] {} := by
  obtain ⟨v, hspells⟩ := exists_spells_textOf (h.subset (List.mem_singleton_self _))
  exact ⟨rfl, .alone rfl, marksOf_raw (v := ['{', '{', '{', '{', '/'] ++ name) hspells
    (hspells.trans (List.append_assoc ..).symm)⟩

/-! ## Statements of a template -/

/-- A tag that writes a value. -/
theorem marksStatement_mustache {kind : Opener} {opener closer : Text} {t : Token} {s s' : Span}
    {called : Call} (hkind : kind = .plain ∨ kind = .unescaped)
    (ht : t = .closer closer ∨ t = .unescapedCloser closer) (hcall : g.WritesCall ls called)
    (h : ⟨.opener kind opener, s⟩ :: (ls ++ [⟨t, s'⟩]) <:+: (tokenize square g.text).lexemes)
    (x : Extent) :
    g.MarksStatement (⟨.opener kind opener, s⟩ :: (ls ++ [⟨t, s'⟩]))
      (g.builder.mustache opener called (.ofDelimiters opener closer) x) := by
  have hinner := inner_of_writesCall hcall
  have hdelimited := delimitedBy_of_tokenize h hinner (ne_nil_of_writesCall hcall) ht
  have htag := marksTag_of_delimitedBy hdelimited hinner ht
  obtain ⟨m, hsaid, hopener⟩ := hdelimited.said
  obtain ⟨hescaped, hstar⟩ := modifiers_of_value hkind hsaid hopener
  rw [← hdelimited.modified _ (by decide), ← hdelimited.modified _ (by decide)] at hescaped
  rw [← hdelimited.modified _ (by decide)] at hstar
  unfold Builder.mustache
  dsimp only
  split
  · next hcontains =>
      exact .decorator ⟨⟨kind, opener, hkind, htag⟩, hescaped⟩ (hstar.mp hcontains)
  · next hcontains =>
      exact .mustache ⟨⟨kind, opener, hkind, htag⟩, hescaped⟩ (mt hstar.mpr hcontains)

/-- An opening tag, and what its star says. -/
theorem marksTag_of_writesOpening {kind : Opener} {head : BlockOpening}
    (h : g.WritesOpening kind ls head) (hls : ls <:+: (tokenize square g.text).lexemes) :
    g.MarksTag (.opener kind head.opener) ls head.strip ∧
      (kind = .block ∨ kind = .inverse ∨ kind = .chain →
        (head.opener.contains '*' = true ↔ (g.textOf ls).OpensWith ['#', '*'])) := by
  cases h with
  | @mk opener closer s s' ls ls' called names hcall hnames _ =>
      have hinner := (inner_of_writesCall hcall).append (inner_of_writesNames hnames)
      have hne : ls ++ ls' ≠ [] :=
        List.append_ne_nil_of_left_ne_nil (ne_nil_of_writesCall hcall) ls'
      have hdelimited := delimitedBy_of_tokenize hls hinner hne (.inl rfl)
      refine ⟨marksTag_of_delimitedBy hdelimited hinner (.inl rfl), fun hkind => ?_⟩
      have hmodified := hdelimited.modified ['#', '*'] (by decide)
      rw [textOf, tag, hmodified]
      obtain ⟨m, hsaid, hopener⟩ := hdelimited.said
      have hplain := unstarred_tokenize (hls.subset List.mem_cons_self)
      rcases hkind with rfl | rfl | rfl
      · exact starred_block_iff hsaid hopener
      · exact iff_of_false (mt List.mem_of_elem_eq_true hplain) (not_opensWith_of_not_mem hplain)
      · exact iff_of_false (mt List.mem_of_elem_eq_true hplain) (not_opensWith_of_not_mem hplain)

theorem marksTag_of_writesClosing {tail : BlockClosing} (h : g.WritesClosing ls tail)
    (hls : ls <:+: (tokenize square g.text).lexemes) :
    ∃ closer, g.MarksTag (.opener .close closer) ls tail.strip := by
  cases h with
  | mk hpath =>
      exact ⟨_, marksTag_of_tag (inner_of_writesExpr hpath) (ne_nil_of_writesExpr hpath) hls⟩

theorem marksStatements_of_writesContents {body : List Statement}
    (h : g.WritesContents ls body) : g.MarksStatements ls body := by
  induction h with
  | nil => exact .nil
  | cons _ ih => exact .cons .content ih

/-- The opening tag of a block that is built, and what its star makes of the block. -/
theorem exists_of_writesOpening {kind : Opener} {head : BlockOpening} {body : List Statement}
    {other : Option ElseSection} {closing : Option BlockClosing} {inverted : Bool} {x : Extent}
    {s : Statement} (hhead : g.WritesOpening kind ls head)
    (hls : ls <:+: (tokenize square g.text).lexemes)
    (hkind : kind = .block ∨ kind = .inverse ∨ kind = .chain)
    (h : g.builder.block head (Builder.program body none) other closing inverted x = .ok s) :
    g.MarksTag (.opener kind head.opener) ls head.strip ∧
      (∀ node, s = .block node → ¬(g.textOf ls).OpensWith ['#', '*']) ∧
      ∀ node, s = .decoratorBlock node → (g.textOf ls).OpensWith ['#', '*'] := by
  obtain ⟨htag, hstar⟩ := marksTag_of_writesOpening hhead hls
  have hkinds := Builder.kind_of_block h
  refine ⟨htag, ?_, ?_⟩
  · rintro node rfl
    rw [← hstar hkind]
    split at hkinds
    · cases hkinds
    · assumption
  · rintro node rfl
    rw [← hstar hkind]
    split at hkinds
    · assumption
    · cases hkinds

/-- A raw block. -/
theorem marksStatement_rawBlock {name : Text} {s s' s'' : Span} {body : List Statement}
    {node : Block} {main : Program} (hinner : Inner ls) (hbody : g.MarksStatements ls' body)
    (hls : ⟨.rawOpener, s⟩ :: (ls ++ ⟨.rawCloser, s'⟩ :: (ls' ++ [⟨.rawEnd name, s''⟩])) <:+:
      (tokenize square g.text).lexemes)
    (hmain : node.program = some main) (hbodies : main.body = body) (hother : node.inverse = none)
    (hopen : node.openStrip = {}) (hclose : node.closeStrip = {}) :
    g.MarksStatement
      (⟨.rawOpener, s⟩ :: (ls ++ ⟨.rawCloser, s'⟩ :: (ls' ++ [⟨.rawEnd name, s''⟩])))
      (.block node) := by
  have hsplit : ⟨.rawOpener, s⟩ :: (ls ++ ⟨.rawCloser, s'⟩ :: (ls' ++ [⟨.rawEnd name, s''⟩])) =
      ⟨.rawOpener, s⟩ :: (ls ++ [⟨.rawCloser, s'⟩]) ++ (ls' ++ [⟨.rawEnd name, s''⟩]) := by simp
  rw [hsplit] at hls ⊢
  obtain ⟨htag, hstar⟩ := marksTag_of_rawOpener (infix_left hls) hinner
  exact .block (.raw (hopen ▸ htag) hmain (hbodies ▸ hbody) hother
    (hclose ▸ marksTag_of_rawEnd (infix_right (infix_right hls)))) hstar

mutual

theorem marks_of_writesStatements : ∀ {ls : List Lexeme} {body : List Statement},
    g.WritesStatements ls body → ls <:+: (tokenize square g.text).lexemes →
    g.MarksStatements ls body
  | _, _, .nil, _ => .nil
  | _, _, .cons hs h, hls =>
      .cons (marks_of_writesStatement hs (infix_left hls))
        (marks_of_writesStatements h (infix_right hls))

theorem marks_of_writesStatement : ∀ {ls : List Lexeme} {s : Statement},
    g.WritesStatement ls s → ls <:+: (tokenize square g.text).lexemes → g.MarksStatement ls s
  | _, _, .content, _ => .content
  | _, _, .comment, hls => .comment (marksTag_of_token (.inl rfl) hls)
  | _, _, .plain h, hls => marksStatement_mustache (.inl rfl) (.inl rfl) h hls _
  | _, _, .unescaped h, hls => marksStatement_mustache (.inr rfl) (.inr rfl) h hls _
  | _, _, .inclusion h, hls =>
      .inclusion (marksTag_of_tag (inner_of_writesCall h) (ne_nil_of_writesCall h) hls)
  | _, _, .rawBlock hcall hbody hblock, hls => by
      obtain rfl := Builder.eq_of_rawBlock hblock
      exact marksStatement_rawBlock (inner_of_writesCall hcall)
        (marksStatements_of_writesContents hbody) hls rfl rfl rfl rfl rfl
  | _, _, @WritesStatement.block _ inverted ls ls' ls'' ls''' _ _ _ _ _ hhead hbody hother htail
      hblock, hls => by
      have hbehind := infix_right hls
      obtain ⟨closer, hclose⟩ := marksTag_of_writesClosing htail (infix_right (infix_right hbehind))
      obtain ⟨htag, hplain, hstarred⟩ := exists_of_writesOpening hhead (infix_left hls)
        (by cases inverted <;> simp) hblock
      obtain ⟨decorator, inverse, node, hinverse, hs, hnode⟩ := Builder.exists_of_block hblock
      have hsection := marks_of_writesSection hother (infix_left (infix_right hbehind)) hinverse
      have hmain := marks_of_writesStatements hbody (infix_left hbehind)
      have hmarks : g.MarksBlock ls (ls' ++ (ls'' ++ ls''')) node := by
        rw [hnode]
        cases inverted with
        | false => exact .main htag rfl hmain hsection hclose
        | true => exact .inverted htag rfl hmain hsection hclose
      rcases hs with rfl | rfl
      · exact .block hmarks (hplain node rfl)
      · exact .decoratorBlock hmarks (hstarred node rfl)
  | _, _, .inclusionBlock hhead hbody htail hblock, hls => by
      obtain rfl := Builder.eq_of_inclusionBlock hblock
      obtain ⟨closer, hclose⟩ := marksTag_of_writesClosing htail (infix_right (infix_right hls))
      exact .inclusionBlock (marksTag_of_writesOpening hhead (infix_left hls)).1
        (marks_of_writesStatements hbody (infix_left (infix_right hls))) hclose

theorem marks_of_writesSection : ∀ {chains : Bool} {ls : List Lexeme} {other : Option ElseSection},
    g.WritesSection chains ls other → ls <:+: (tokenize square g.text).lexemes →
    ∀ {decorator : Bool} {closing : Strip} {loc : Location} {inverse : Option Program},
      Builder.inverseProgram decorator closing loc other = .ok inverse →
      g.MarksSection ((other.map ElseSection.strip).getD {}) ls inverse
  | _, _, _, .none, _, _, _, _, _, h => by
      cases h
      exact .none
  | _, _, _, .plain hbody, hls, _, _, _, _, h => by
      obtain rfl := Builder.eq_of_inverseProgram rfl h
      rw [← List.singleton_append] at hls
      exact .plain (marksTag_of_token (.inr rfl) (infix_left hls)) rfl
        (marks_of_writesStatements hbody (infix_right hls))
  | _, _, _, .link hhead hbody hother hblock, hls, _, _, _, _, h => by
      obtain ⟨q, hq, rfl⟩ := Builder.closeChain_of_inverseProgram rfl h
      obtain ⟨node, loc, rfl, rfl⟩ := exists_of_closeChain hq
      obtain ⟨htag, hplain, -⟩ :=
        exists_of_writesOpening hhead (infix_left hls) (.inr (.inr rfl)) hblock
      obtain ⟨decorator, inverse, node', hinverse, hs, hnode⟩ := Builder.exists_of_block hblock
      obtain rfl : node = node' := by
        rcases hs with hs | hs
        · exact Statement.block.inj hs
        · cases hs
      have hsection := marks_of_writesSection hother (infix_right (infix_right hls)) hinverse
      rw [hnode] at hplain ⊢
      exact .link htag rfl rfl rfl (hplain _ rfl) rfl
        (marks_of_writesStatements hbody (infix_left (infix_right hls))) hsection

end

/-! ## Alike trees -/

section

variable {R : Content → Content → Prop}

theorem Section.Alike.exists_of_some {main : Program} {q : Option Program}
    (h : Section.Alike R (some main) q) :
    ∃ body, q = some { main with body := body } ∧ Body.Alike R main.body body := by
  cases h with
  | some h =>
      cases h with
      | mk _ hbody => exact ⟨_, rfl, hbody⟩

/-- A link that is alike another. -/
theorem Body.Alike.exists_of_link {node : Block} {body : List Statement}
    (h : Body.Alike R [.block node] body) :
    ∃ main inverse, body = [.block { node with program := main, inverse := inverse }] ∧
      Section.Alike R node.program main ∧ Section.Alike R node.inverse inverse := by
  cases h with
  | cons hs hrest =>
      cases hrest with
      | nil =>
          cases hs with
          | block _ hmain hinverse => exact ⟨_, _, rfl, hmain, hinverse⟩

mutual

theorem MarksStatements.alike : ∀ {ls : List Lexeme} {body body' : List Statement},
    g.MarksStatements ls body → Body.Alike R body body' → g.MarksStatements ls body'
  | _, _, _, .nil, .nil => .nil
  | _, _, _, .cons hs h, .cons hs' h' => .cons (hs.alike hs') (h.alike h')

theorem MarksStatement.alike : ∀ {ls : List Lexeme} {s t : Statement},
    g.MarksStatement ls s → Statement.Alike R s t → g.MarksStatement ls t
  | _, _, _, .content, .content _ => .content
  | _, _, _, .comment h, .comment _ => .comment h
  | _, _, _, .mustache h hstar, .mustache _ => .mustache h hstar
  | _, _, _, .decorator h hstar, .decorator _ => .decorator h hstar
  | _, _, _, .inclusion h, .inclusion _ _ => .inclusion h
  | _, _, _, .block h hstar, .block _ hmain hinverse => .block (h.alike hmain hinverse) hstar
  | _, _, _, .decoratorBlock h hstar, .decoratorBlock _ hmain hinverse =>
      .decoratorBlock (h.alike hmain hinverse) hstar
  | _, _, _, .inclusionBlock hopen hbody hclose, .inclusionBlock _ (.mk _ hbody') =>
      .inclusionBlock hopen (hbody.alike hbody') hclose

theorem MarksBlock.alike : ∀ {ls ls' : List Lexeme} {node : Block} {main inverse : Option Program},
    g.MarksBlock ls ls' node → Section.Alike R node.program main →
    Section.Alike R node.inverse inverse →
    g.MarksBlock ls ls' { node with program := main, inverse := inverse }
  | _, _, _, _, _, .main hopen hmain hbody hother hclose, hp, hi => by
      rw [hmain] at hp
      obtain ⟨body, rfl, hbody'⟩ := Section.Alike.exists_of_some hp
      exact .main hopen rfl (hbody.alike hbody') (hother.alike hi) hclose
  | _, _, _, _, _, .inverted hopen hmain hbody hother hclose, hp, hi => by
      rw [hmain] at hi
      obtain ⟨body, rfl, hbody'⟩ := Section.Alike.exists_of_some hi
      exact .inverted hopen rfl (hbody.alike hbody') (hother.alike hp) hclose
  | _, _, _, _, _, .raw hopen hmain hbody hother hclose, hp, hi => by
      rw [hmain] at hp
      rw [hother] at hi
      obtain ⟨body, rfl, hbody'⟩ := Section.Alike.exists_of_some hp
      cases hi
      exact .raw hopen rfl (hbody.alike hbody') rfl hclose

theorem MarksSection.alike : ∀ {strip : Strip} {ls : List Lexeme} {p q : Option Program},
    g.MarksSection strip ls p → Section.Alike R p q → g.MarksSection strip ls q
  | _, _, _, _, .none, .none => .none
  | _, _, _, _, .plain h hchained hbody, .some (.mk _ hbody') =>
      .plain h hchained (hbody.alike hbody')
  | _, _, _, _, .link h hchained hlink hopen hstar hmain hbody hother, .some (.mk _ hbody') => by
      rw [hlink] at hbody'
      obtain ⟨main, inverse, rfl, hp, hi⟩ := Body.Alike.exists_of_link hbody'
      rw [hmain] at hp
      obtain ⟨body, rfl, hmain'⟩ := Section.Alike.exists_of_some hp
      exact .link h hchained rfl hopen hstar rfl (hbody.alike hmain') (hother.alike hi)

end

end

end Grammar

/-- **The modifiers written in a tag are the ones recorded.**  The tokens of an accepted template
and the statements of its tree, taken as it is written or with its whitespace normalized, go
along with each other tag by tag.  For each tag the tree has a marker where its
source text has a `~` directly behind the `{{` or directly in front of the last `}}`, a value
is unescaped where a `{` or a `&` follows, and a decorator stands where a `*` does. -/
theorem marks_of_parse {o : Options} {text : Text} {raw p : Program}
    (hraw : parseRaw o text = .ok raw) (hp : p = raw ∨ parse o text = .ok p) :
    (o.grammar text).MarksStatements (tokenize o.brackets.isList text).lexemes p.body := by
  have hmarks : (o.grammar text).MarksStatements (tokenize o.brackets.isList text).lexemes
      raw.body := by
    cases writesProgram_of_parseRaw hraw with
    | mk h => exact Grammar.marks_of_writesStatements h List.infix_rfl
  cases trimsTo_of_parse hraw hp with
  | mk _ hbody => exact hmarks.alike hbody

/-- The template `{{~#if a}}{{{b}}}{{else~}}{{*c}}{{~! d }}{{/if~}}`. -/
def modifiedText : Text :=
  ("\x7b\x7b~#if a\x7d\x7d\x7b\x7b\x7bb\x7d\x7d\x7d\x7b\x7belse~\x7d\x7d" ++
    "\x7b\x7b*c\x7d\x7d\x7b\x7b~! d \x7d\x7d\x7b\x7b/if~\x7d\x7d").toList

/-- Its tags are those of its tree. -/
theorem marks_modifiedText : ∃ p, parseRaw {} modifiedText = .ok p ∧
    (Options.grammar {} modifiedText).MarksStatements (tokenize false modifiedText).lexemes
      p.body := by
  obtain ⟨p, hp⟩ : ∃ p, parseRaw {} modifiedText = .ok p := ⟨_, by cbv⟩
  exact ⟨p, hp, marks_of_parse hp (.inl rfl)⟩

end Stache
