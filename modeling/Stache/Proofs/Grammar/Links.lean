import Mathlib
import Stache.Proofs.Grammar.Bodies
import Stache.Proofs.Layout.Frame

/-!
# The markers that close a link

A link of an else chain has no closing tag, but it remembers markers in the
place of one.  The markers of the section behind it come first, since the chain
is read from its end.  Then the block around the link puts its own closing
markers there: the block itself those of its closing tag, and a link those of
the section behind it, which is the link in question.

So the first link of a chain has the markers of the closing tag, and every later
one those of its own tag (`closeStrips_of_parse`).
-/

namespace Stache

/-! ## The links of a chain -/

mutual

/-- The links that an else section begins, the first one first. -/
def linksOf : Option Program → List Block
  | none => []
  | some p => linksOfProgram p

/-- The links that a program wraps. -/
def linksOfProgram : Program → List Block
  | ⟨body, _, chained, _⟩ => if chained then linksOfBody body else []

/-- The same for its statements. -/
def linksOfBody : List Statement → List Block
  | [] => []
  | s :: _ => linksOfStatement s

/-- A link and those behind it. -/
def linksOfStatement : Statement → List Block
  | .block ⟨call, program, inverse, opening, middle, closing, loc⟩ =>
      ⟨call, program, inverse, opening, middle, closing, loc⟩ :: linksOf inverse
  | _ => []

end

/-- The links of the else chain of a block. -/
def Block.links (node : Block) : List Block := linksOf node.inverse

theorem linksOf_chained (node : Block) (names : Option (List Text)) (loc : Option Location) :
    linksOf (some ⟨[.block node], names, true, loc⟩) = node :: node.links := by
  obtain ⟨call, program, inverse, opening, middle, closing, loc⟩ := node
  rfl

/-- What the links of a chain have for closing markers, when those of the block around it
are `closing`. -/
structure ClosedBy (closing : Strip) (links : List Block) : Prop where
  first : ∀ link ∈ links.head?, link.closeStrip = closing
  later : ∀ link ∈ links.tail, link.closeStrip = link.openStrip

theorem ClosedBy.nil {closing : Strip} : ClosedBy closing [] :=
  ⟨by simp, by simp⟩

/-- One more link in front of a chain: it closes the links behind it with their own markers. -/
theorem ClosedBy.cons {node : Block} (h : ClosedBy node.inverseStrip node.links)
    (hopen : ∀ link ∈ node.links.head?, node.inverseStrip = link.openStrip) :
    ClosedBy node.closeStrip (node :: node.links) where
  first link hlink := by
    rw [Option.mem_some.mp hlink]
  later link hlink := by
    obtain ⟨hfirst, hlater⟩ := h
    rw [List.tail_cons] at hlink
    cases hlinks : node.links with
    | nil =>
        rw [hlinks] at hlink
        cases hlink
    | cons next more =>
        rw [hlinks] at hlink hfirst hlater hopen
        rcases List.mem_cons.mp hlink with rfl | hlink
        · rw [hfirst link rfl, hopen link rfl]
        · exact hlater link hlink

/-- A tag that writes a value is no block. -/
theorem Builder.mustache_ne_block {b : Builder} (opener : Text) (called : Call) (strip : Strip)
    (x : Extent) (node : Block) : b.mustache opener called strip x ≠ .block node := by
  obtain ⟨escaped, h | h⟩ := b.exists_of_mustache opener called strip x <;>
    exact fun hs => Statement.noConfusion (h.symm.trans hs)

namespace Grammar

variable (g : Grammar)

/-- The tokens from the first else tag of a block up to its closing tag, with the markers of the
tags of its links. -/
inductive WritesChain : List Lexeme → List Strip → Prop where
  /-- A plain else section, or none. -/
  | last {ls : List Lexeme} {other : Option ElseSection} (h : g.WritesSection false ls other) :
      WritesChain ls []
  | link {opener closer : Text} {s s' : Span} {inner ls ls' : List Lexeme} {body : List Statement}
      {strips : List Strip} (hbody : g.WritesStatements ls body) (h : WritesChain ls' strips) :
      WritesChain (tag .chain opener s inner closer s' ++ (ls ++ ls'))
        (.ofDelimiters opener closer :: strips)

variable {g}

/-- The chain behind a block whose closing markers are `closing`.  The induction goes along the
chain: what closes a link when it is built are the markers of the section behind it, so the first
link in that section has markers that are its own. -/
theorem chain_of_writesSection : ∀ {chains : Bool} {ls : List Lexeme} {other : Option ElseSection},
    g.WritesSection chains ls other → ∀ {decorator : Bool} {closing : Strip} {loc : Location}
      {inverse : Option Program},
      Builder.inverseProgram decorator closing loc other = .ok inverse →
      g.WritesChain ls ((linksOf inverse).map Block.openStrip) ∧
        ClosedBy closing (linksOf inverse) ∧
        ∀ link ∈ (linksOf inverse).head?, (other.map ElseSection.strip).getD {} = link.openStrip
  | _, _, _, .none, _, _, _, _, h => by
      cases h
      exact ⟨.last .none, .nil, fun _ h => nomatch h⟩
  | _, _, _, .plain hbody, _, _, _, _, h => by
      obtain rfl := Builder.eq_of_inverseProgram rfl h
      exact ⟨.last (.plain hbody), .nil, fun _ h => nomatch h⟩
  | _, _, _, .link hhead hbody hother hblock, _, closing, _, _, h => by
      obtain ⟨q, hq, rfl⟩ := Builder.closeChain_of_inverseProgram rfl h
      obtain ⟨node, loc, rfl, rfl⟩ := exists_of_closeChain hq
      obtain ⟨decorator, inverse, node', hinverse, hs, hnode⟩ := Builder.exists_of_block hblock
      obtain rfl : node = node' := by
        rcases hs with hs | hs
        · exact Statement.block.inj hs
        · cases hs
      rw [Builder.strip_linkClosing] at hinverse
      obtain ⟨hchain, hclosed, hopen⟩ := chain_of_writesSection hother hinverse
      have hlinks : linksOf inverse = node.links := by
        rw [hnode]
        rfl
      have hopening := congrArg Block.openStrip hnode
      have hmiddle := congrArg Block.inverseStrip hnode
      dsimp only at hopening hmiddle
      rw [hlinks] at hchain hclosed hopen
      rw [← hmiddle] at hclosed hopen
      rw [linksOf_chained]
      have hlink := @ClosedBy.cons { node with closeStrip := closing } hclosed hopen
      refine ⟨?_, hlink, fun link hlink => ?_⟩
      · cases hhead with
        | mk _ _ _ =>
            rw [List.map_cons, hopening]
            exact .link hbody hchain
      · rw [← Option.mem_some.mp hlink]
        exact hopening.symm

/-- The closing tag of a block that is followed by an else chain, and the markers of all of it. -/
theorem chain_of_writesStatement {ls : List Lexeme} {node : Block}
    (h : g.WritesStatement ls (.block node)) (hlinks : node.links ≠ []) :
    ∃ before opener s inner closer s' chain,
      ls = before ++ (chain ++ tag .close opener s inner closer s') ∧
      g.WritesChain chain (node.links.map Block.openStrip) ∧
      node.closeStrip = .ofDelimiters opener closer ∧
      ClosedBy (.ofDelimiters opener closer) node.links := by
  generalize hs : Statement.block node = block at h
  cases h with
  | @block inverted ls₀ ls₁ chain _ _ body _ _ _ hhead hbody hother htail hblock =>
      obtain ⟨decorator, inverse, node', hinverse, hs', hnode⟩ := Builder.exists_of_block hblock
      obtain rfl : node = node' := by
        rcases hs' with hs' | hs'
        · exact Statement.block.inj (hs.trans hs')
        · exact Statement.noConfusion (hs.trans hs')
      cases inverted with
      | true =>
          have hinverted : node.links = [] := by
            rw [hnode]
            rfl
          exact absurd hinverted hlinks
      | false =>
          have hinverse' : node.links = linksOf inverse := by rw [hnode]; rfl
          cases htail with
          | @mk opener closer s s' inner path hpath =>
              obtain ⟨hchain, hclosed, -⟩ := chain_of_writesSection hother hinverse
              rw [← hinverse'] at hchain hclosed
              refine ⟨ls₀ ++ ls₁, opener, s, inner, closer, s', chain, ?_, hchain, ?_, hclosed⟩
              · rw [List.append_assoc]
              · rw [hnode]
                rfl
  | rawBlock hcall hbody hblock =>
      obtain rfl := Builder.eq_of_rawBlock hblock
      cases hs
      exact absurd rfl hlinks
  | plain | unescaped => exact absurd hs.symm (Builder.mustache_ne_block _ _ _ _ node)
  | content | comment | inclusion => cases hs
  | inclusionBlock hhead hbody htail hblock =>
      rw [Builder.eq_of_inclusionBlock hblock] at hs
      cases hs

end Grammar

/-! ## Alike trees -/

section

variable {R : Content → Content → Prop}

/-- The markers that a link remembers for its own tag and for a closing tag. -/
def Block.strips (node : Block) : Strip × Strip := (node.openStrip, node.closeStrip)

mutual

/-- Alike sections begin links with the same markers. -/
theorem Section.Alike.strips_linksOf : ∀ {p q : Option Program}, Section.Alike R p q →
    (linksOf q).map Block.strips = (linksOf p).map Block.strips
  | _, _, .none => rfl
  | _, _, .some h => Program.Alike.strips_links h

theorem Program.Alike.strips_links : ∀ {p q : Program}, p.Alike R q →
    (linksOfProgram q).map Block.strips = (linksOfProgram p).map Block.strips
  | ⟨_, _, false, _⟩, _, .mk _ _ => rfl
  | ⟨_, _, true, _⟩, _, .mk _ h => Body.Alike.strips_links h

theorem Body.Alike.strips_links : ∀ {body body' : List Statement}, Body.Alike R body body' →
    (linksOfBody body').map Block.strips = (linksOfBody body).map Block.strips
  | _, _, .nil => rfl
  | _, _, .cons hs _ => Statement.Alike.strips_links hs

theorem Statement.Alike.strips_links : ∀ {s t : Statement}, s.Alike R t →
    (linksOfStatement t).map Block.strips = (linksOfStatement s).map Block.strips
  | .block ⟨_, _, _, _, _, _, _⟩, _, .block _ _ hi =>
      congrArg (List.cons _) (Section.Alike.strips_linksOf hi)
  | _, _, .decoratorBlock _ _ _ => rfl
  | _, _, .mustache _ | _, _, .decorator _ | _, _, .comment _ | _, _, .content _
  | _, _, .inclusion _ _ | _, _, .inclusionBlock _ _ => rfl

end

end

theorem ClosedBy.of_strips {closing : Strip} {links links' : List Block}
    (h : links'.map Block.strips = links.map Block.strips) (hclosed : ClosedBy closing links) :
    ClosedBy closing links' where
  first link hlink := by
    have hhead : link.strips ∈ (links.map Block.strips).head? := by
      rw [← h, List.head?_map]
      exact Option.mem_map_of_mem _ hlink
    rw [List.head?_map] at hhead
    obtain ⟨link', hlink', hstrips⟩ := Option.map_eq_some_iff.mp hhead
    exact (congrArg Prod.snd hstrips).symm.trans (hclosed.first link' hlink')
  later link hlink := by
    have htail : link.strips ∈ (links.map Block.strips).tail := by
      rw [← h, ← List.map_tail]
      exact List.mem_map_of_mem hlink
    rw [← List.map_tail] at htail
    obtain ⟨link', hlink', hstrips⟩ := List.mem_map.mp htail
    have hopening : link'.openStrip = link.openStrip := congrArg Prod.fst hstrips
    have hclosing : link'.closeStrip = link.closeStrip := congrArg Prod.snd hstrips
    rw [← hopening, ← hclosing, hclosed.later link' hlink']

/-! ## Templates -/

/-- The tree of a template comes from the tree as it is written by trims of its texts. -/
theorem trimsTo_of_parse {o : Options} {text : Text} {raw p : Program}
    (hraw : parseRaw o text = .ok raw) (hp : p = raw ∨ parse o text = .ok p) : raw.TrimsTo p := by
  rcases hp with rfl | hp
  · exact Program.TrimsTo.refl p
  · rw [parse, hraw] at hp
    obtain rfl := Except.ok.inj hp
    exact Layout.trimsTo_program o.ignoreStandalone true raw

/-- **The closing tag's markers reach the first link of an else chain, and no other one.**
The tree of an accepted template is taken as it is written or with its whitespace normalized.  A
block in it that is no link and has links behind it was written by some tokens, which end with the
tokens of the chain and with a closing tag.  The first link has the closing markers of that tag,
like the block.  Every later link, so also the last one of a chain of two or more,
has those of its own tag. -/
theorem closeStrips_of_parse {o : Options} {text : Text} {raw p q : Program} {node link : Block}
    {more : List Block} (hraw : parseRaw o text = .ok raw) (hp : p = raw ∨ parse o text = .ok p)
    (hq : (Node.program q).Within (.program p)) (hchained : q.chained = false)
    (hnode : .block node ∈ q.body) (hlinks : node.links = link :: more) :
    ∃ before front chain opener s inner closer s' after written,
      (tokenize o.brackets.isList text).lexemes =
        before ++ (front ++ (chain ++ Grammar.tag .close opener s inner closer s')) ++ after ∧
      (o.grammar text).WritesStatement
        (front ++ (chain ++ Grammar.tag .close opener s inner closer s')) (.block written) ∧
      Statement.TrimsTo (.block written) (.block node) ∧
      (o.grammar text).WritesChain chain (node.links.map Block.openStrip) ∧
      node.closeStrip = .ofDelimiters opener closer ∧
      link.closeStrip = .ofDelimiters opener closer ∧
      ∀ later ∈ more, later.closeStrip = later.openStrip := by
  have htrims := trimsTo_of_parse hraw hp
  obtain ⟨n, hn, halike⟩ := hq.exists_alike trivial (.program htrims)
  cases halike with
  | program hq₀ =>
      cases hq₀ with
      | mk q₀ hbody =>
          obtain ⟨s, hs, hnode₀⟩ := hbody.exists_of_mem hnode
          obtain ⟨before, own, after, hlexemes, hown⟩ := exists_of_mem_body hraw hn hchained hs
          generalize hblock : Statement.block node = block at hnode₀
          cases hnode₀ with
          | @block written main inverse hmain hinverse =>
              obtain rfl := Statement.block.inj hblock
              have hstrips : (Block.links { written with program := main, inverse := inverse }).map
                  Block.strips = written.links.map Block.strips := hinverse.strips_linksOf
              have hopening := congrArg (List.map Prod.fst) hstrips
              rw [List.map_map, List.map_map] at hopening
              have hne : written.links ≠ [] := by
                intro hnil
                rw [hlinks, hnil] at hstrips
                cases hstrips
              obtain ⟨front, opener, sp, inner, closer, sp', chain, rfl, hchain, hclosing,
                hclosed⟩ := Grammar.chain_of_writesStatement hown hne
              have hclosed' := hclosed.of_strips hstrips
              rw [hlinks] at hclosed'
              refine ⟨before, front, chain, opener, sp, inner, closer, sp', after, written, ?_,
                hown, .block written hmain hinverse, hopening ▸ hchain, hclosing,
                hclosed'.first link rfl, hclosed'.later⟩
              simp only [hlexemes, List.append_assoc]
          | _ => cases hblock

/-- The template `{{#a}}A{{else b}}B{{else c~}}C{{~/a}}`. -/
def longChain : Text :=
  ("\x7b\x7b#a\x7d\x7dA\x7b\x7belse b\x7d\x7dB\x7b\x7belse c~\x7d\x7dC" ++
    "\x7b\x7b~/a\x7d\x7d").toList

/-- Its last link does not have the markers of the closing tag. -/
theorem closeStrip_last_ne : ∃ p node first last, parseRaw {} longChain = .ok p ∧
    p.body = [.block node] ∧ node.links = [first, last] ∧
    node.closeStrip = .ofDelimiters "\x7b\x7b~/".toList "\x7d\x7d".toList ∧
    first.closeStrip = node.closeStrip ∧ last.closeStrip ≠ node.closeStrip :=
  ⟨_, _, _, _, by cbv, by rfl, by rfl, by rfl, by rfl, by decide⟩

/-- Its first link has the markers of the closing tag, and the last one those of its own. -/
theorem closeStrips_longChain : ∃ p node first last, parseRaw {} longChain = .ok p ∧
    p.body = [.block node] ∧ node.links = [first, last] ∧
    first.closeStrip = node.closeStrip ∧ last.closeStrip = last.openStrip := by
  obtain ⟨p, node, first, last, hp, hchained, hbody, hlinks⟩ : ∃ p node first last,
      parseRaw {} longChain = .ok p ∧ p.chained = false ∧ p.body = [.block node] ∧
      node.links = [first, last] := ⟨_, _, _, _, by cbv, by rfl, by rfl, by rfl⟩
  have hmem : Statement.block node ∈ p.body := by
    rw [hbody]
    exact List.mem_singleton_self _
  obtain ⟨-, -, -, opener, -, -, closer, -, -, -, -, -, -, -, hclosing, hfirst, hlater⟩ :=
    closeStrips_of_parse hp (Or.inl rfl) .refl hchained hmem hlinks
  exact ⟨p, node, first, last, hp, hbody, hlinks, hfirst.trans hclosing.symm,
    hlater last (List.mem_singleton_self last)⟩

end Stache
