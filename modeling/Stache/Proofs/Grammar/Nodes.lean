import Stache.Proofs.Grammar.Spelled
import Stache.Proofs.Tree.Parts

/-!
# The tokens of a node

`WritesNode ls n` says of a node of any family that the tokens `ls` write it.
The sections of a block are nodes too, and so is a link of an else chain, which
takes the markers of a closing tag from the block around it.

The parts of a node are written by tokens of its own that lie side by side
(`row_of_writesNode`).  So the tokens of a template have those of each node of
the tree somewhere in them (`exists_of_within`).
-/

namespace Stache
namespace Grammar

variable (g : Grammar)

/-- Lists and hashes are built as what they are. -/
def Literal : Prop :=
  (∀ build, g.builder.brackets ≠ .custom build) ∧ ∀ build, g.builder.hashes ≠ .custom build

/-! ## Nodes -/

/-- A link of an else chain, with the markers of a closing tag. -/
inductive WritesLink : List Lexeme → Block → Prop where
  | mk {ls ls' ls'' : List Lexeme} {head : BlockOpening} {body : List Statement}
      {other : Option ElseSection} {node : Block} {closing : Strip}
      (hhead : g.WritesOpening .chain ls head) (hbody : g.WritesStatements ls' body)
      (hother : g.WritesSection true ls'' other)
      (hblock : g.builder.block head (Builder.program body none) other
        (other.map fun s => (⟨none, s.strip⟩ : BlockClosing)) false
        (g.extentOf (ls ++ (ls' ++ ls''))) = .ok (.block node))
      (hclosing : closing.Plain) :
      WritesLink (ls ++ (ls' ++ ls'')) { node with closeStrip := closing }

/-- A node of any family. -/
inductive WritesNode : List Lexeme → Node → Prop where
  | expr {ls : List Lexeme} {e : Expr} (h : g.WritesExpr ls e) : WritesNode ls (.expr e)
  | hash {ls : List Lexeme} {pairs : List HashPair} (h : g.WritesPairs ls pairs)
      (hne : pairs ≠ []) :
      WritesNode ls (.hash ⟨pairs, g.builder.locate (g.extentOf ls)⟩)
  | hashPair {key : Text} {s s' : Span} {ls : List Lexeme} {value : Expr}
      (h : g.WritesExpr ls value) :
      WritesNode (⟨.ident key, s⟩ :: ⟨.equals, s'⟩ :: ls)
        (.hashPair ⟨unbracket key, value,
          g.builder.locate (g.extentOf (⟨.ident key, s⟩ :: ⟨.equals, s'⟩ :: ls))⟩)
  | statement {ls : List Lexeme} {s : Statement} (h : g.WritesStatement ls s) :
      WritesNode ls (.statement s)
  | link {ls : List Lexeme} {node : Block} (h : g.WritesLink ls node) :
      WritesNode ls (.statement (.block node))
  /-- A template or a section. -/
  | program {ls : List Lexeme} {body : List Statement} {names : Option (List Text)}
      (h : g.WritesStatements ls body) :
      WritesNode ls (.program { Builder.program body none with blockParams := names })
  /-- The body of a raw block. -/
  | contents {ls : List Lexeme} {body : List Statement} {loc : Location}
      (h : g.WritesContents ls body) : WritesNode ls (.program ⟨body, none, false, some loc⟩)
  /-- The program around a link. -/
  | chained {ls : List Lexeme} {node : Block} {loc : Location} (h : g.WritesLink ls node) :
      WritesNode ls (.program ⟨[.block node], none, true, some loc⟩)

/-- Nodes side by side, with other tokens between them. -/
inductive WritesRow : List Lexeme → List Node → Prop where
  | done {ls : List Lexeme} : WritesRow ls []
  | skip {l : Lexeme} {ls : List Lexeme} {ns : List Node} (h : WritesRow ls ns) :
      WritesRow (l :: ls) ns
  | node {ls ls' : List Lexeme} {n : Node} {ns : List Node} (hn : g.WritesNode ls n)
      (h : WritesRow ls' ns) : WritesRow (ls ++ ls') (n :: ns)

variable {g} {ls ls' : List Lexeme} {ns ns' : List Node} {n : Node}

namespace WritesRow

/-- Two rows of nodes are one. -/
theorem append (h : g.WritesRow ls ns) (h' : g.WritesRow ls' ns') :
    g.WritesRow (ls ++ ls') (ns ++ ns') := by
  induction h with
  | @done ls =>
      induction ls with
      | nil => exact h'
      | cons l ls ih => exact ih.skip
  | skip _ ih => exact ih.skip
  | node hn _ ih =>
      rw [List.append_assoc]
      exact .node hn ih

/-- Tokens behind the last node. -/
theorem behind (h : g.WritesRow ls ns) (ls' : List Lexeme) : g.WritesRow (ls ++ ls') ns :=
  List.append_nil ns ▸ h.append .done

/-- A node is a row of its own. -/
theorem one (hn : g.WritesNode ls n) : g.WritesRow ls [n] := List.append_nil ls ▸ .node hn .done

/-- A node of the row has its tokens somewhere in those of the row. -/
theorem exists_of_mem (h : g.WritesRow ls ns) (hn : n ∈ ns) :
    ∃ before own after, ls = before ++ (own ++ after) ∧ g.WritesNode own n := by
  induction h with
  | done => cases hn
  | @skip l ls ns _ ih =>
      obtain ⟨before, own, after, rfl, hown⟩ := ih hn
      exact ⟨l :: before, own, after, rfl, hown⟩
  | @node ls ls' m ns hm _ ih =>
      rcases List.mem_cons.mp hn with rfl | hn
      · exact ⟨[], ls, ls', rfl, hm⟩
      · obtain ⟨before, own, after, rfl, hown⟩ := ih hn
        exact ⟨ls ++ before, own, after, (List.append_assoc ..).symm, hown⟩

end WritesRow

variable (g) in
/-- The tokens of a node write its parts side by side. -/
def WritesParts (ls : List Lexeme) (n : Node) : Prop :=
  ∃ sections : List Program, sections.Perm n.sections ∧
    g.WritesRow ls (n.ordered ++ sections.map .program)

/-- A node without sections. -/
theorem WritesParts.ordered (h : g.WritesRow ls n.ordered) (hn : n.sections = []) :
    g.WritesParts ls n :=
  ⟨[], hn ▸ .nil, (List.append_nil n.ordered).symm ▸ h⟩

/-! ## The inside of tags -/

/-- Arguments are written one behind the other. -/
theorem row_of_writesExprs {es : List Expr} (h : g.WritesExprs ls es) :
    g.WritesRow ls (es.map .expr) := by
  induction es generalizing ls with
  | nil => exact .done
  | cons e es ih =>
      cases h with
      | cons he h => exact .node (.expr he) (ih h)

/-- Named arguments are written one behind the other. -/
theorem row_of_writesPairs {pairs : List HashPair} (h : g.WritesPairs ls pairs) :
    g.WritesRow ls (pairs.map .hashPair) := by
  induction pairs generalizing ls with
  | nil => exact .done
  | cons p pairs ih =>
      cases h with
      | cons hvalue h => exact .node (.hashPair hvalue) (ih h)

theorem row_of_hashAt {pairs : List HashPair} (h : g.WritesPairs ls pairs) :
    g.WritesRow ls ((g.hashAt ls pairs).toList.map .hash) := by
  cases pairs with
  | nil => exact .done
  | cons p pairs => exact .one (.hash h (List.cons_ne_nil p pairs))

/-- The parts of a call are written one behind the other. -/
theorem row_of_writesCall {c : Call} (h : g.WritesCall ls c) : g.WritesRow ls c.nodes := by
  cases h with
  | mk hhead hparams hpairs =>
      exact .node (.expr hhead) ((row_of_writesExprs hparams).append (row_of_hashAt hpairs))

/-- Parentheses belong to none of the nodes between them. -/
theorem row_parens {s s' : Span} (h : g.WritesRow ls ns) : g.WritesRow (parens s ls s') ns :=
  .skip (h.behind _)

/-- Delimiters belong to none of the nodes between them. -/
theorem row_tag {kind : Opener} {opener closer : Text} {s s' : Span} (h : g.WritesRow ls ns) :
    g.WritesRow (tag kind opener s ls closer s') ns := .skip (h.behind _)

/-- What a path that is built starts from.  Only a call is not taken from its names. -/
theorem head_of_path {b : Builder} {data : Bool} {sub? : Option SubExpr}
    {segments : List Segment} {x : Extent} {p : Path} (h : b.path data sub? segments x = .ok p) :
    (∃ sub, sub? = some sub ∧ p.head = some (.sub sub)) ∨
      sub? = none ∧ ((∃ name, p.head = some (.segment name)) ∨ p.head = none ∧ p.tail = []) := by
  unfold Builder.path at h
  dsimp only at h
  split at h
  · cases h
  · cases h
    cases sub? with
    | some sub => exact .inl ⟨sub, rfl, rfl⟩
    | none =>
        refine .inr ⟨rfl, ?_⟩
        split
        · next h => cases h
        · next names h => exact .inr ⟨rfl, rfl⟩
        · next h => exact .inl ⟨_, rfl⟩

/-- A path has no parts but the call that it begins with. -/
theorem headNodes_of_path {b : Builder} {data : Bool} {sub? : Option SubExpr}
    {segments : List Segment} {x : Extent} {p : Path} (h : b.path data sub? segments x = .ok p) :
    p.headNodes = sub?.toList.map (.expr <| .sub ·) := by
  rcases head_of_path h with ⟨sub, rfl, hhead⟩ | ⟨rfl, ⟨name, hhead⟩ | ⟨hhead, -⟩⟩ <;>
    simp [Path.headNodes, hhead]

theorem hashLiteral_of_literal (hg : g.Literal) (h : Hash) (x : Extent) :
    g.builder.hashLiteral h x = .hash h.pairs (g.builder.locate x) := by
  unfold Builder.hashLiteral
  split
  · next build hbuild => exact absurd hbuild (hg.2 build)
  · rfl

/-- Without a function of the caller a list is a node. -/
theorem array_of_literal (hg : g.Literal) (items : List Expr) (x : Extent) :
    g.builder.array items x = .array items (g.builder.locate x) := by
  unfold Builder.array
  split
  · next build hbuild => exact absurd hbuild (hg.1 build)
  · rfl
  · rfl

/-- The parts of an expression are written in order. -/
theorem ordered_of_writesExpr (hg : g.Literal) {e : Expr} (h : g.WritesExpr ls e) :
    g.WritesRow ls (Node.expr e).ordered := by
  cases h with
  | path _ hpath | data _ hpath =>
      rw [Node.ordered, headNodes_of_path hpath]
      exact .done
  | hash h _ =>
      rw [hashLiteral_of_literal hg]
      exact row_parens (row_of_writesPairs h)
  | sub h => exact row_parens (row_of_writesCall h)
  | subPath h hmore hpath =>
      rw [Node.ordered, headNodes_of_path hpath]
      exact (WritesRow.one (.expr (.sub h))).behind _
  | array h =>
      rw [array_of_literal hg]
      exact .skip ((row_of_writesExprs h).behind _)
  | string | number | boolean | undefined | null => exact .done

/-! ## Blocks -/

/-- The nodes of an opening tag are those of its call. -/
theorem row_of_writesOpening {kind : Opener} {head : BlockOpening}
    (h : g.WritesOpening kind ls head) : g.WritesRow ls head.call.nodes := by
  cases h with
  | mk hcall _ _ => exact row_tag ((row_of_writesCall hcall).behind _)

theorem plain_of_writesOpening {kind : Opener} {head : BlockOpening}
    (h : g.WritesOpening kind ls head) : head.strip.Plain := by
  cases h with
  | mk _ _ _ => exact Strip.plain_ofDelimiters _ _

theorem plain_of_writesClosing {tail : BlockClosing} (h : g.WritesClosing ls tail) :
    tail.strip.Plain := by
  cases h with
  | mk _ => exact Strip.plain_ofDelimiters _ _

/-- Statements are written one behind the other. -/
theorem row_of_writesStatements {body : List Statement} (h : g.WritesStatements ls body) :
    g.WritesRow ls (body.map .statement) := by
  induction body generalizing ls with
  | nil => exact .done
  | cons s body ih =>
      cases h with
      | cons hs h => exact .node (.statement hs) (ih h)

theorem row_of_writesContents {body : List Statement} (h : g.WritesContents ls body) :
    g.WritesRow ls (body.map .statement) := by
  induction h with
  | nil => exact .done
  | @cons text span ls more _ ih =>
      have hcontent : g.WritesNode [⟨.content text, span⟩] (.statement _) := .statement .content
      exact .node hcontent ih

/-- A link that is closed is the block in the chained program. -/
theorem exists_of_closeChain {block : Statement} {loc : Option Location} {closing : Strip}
    {q : Program} (h : Builder.closeChain (Builder.chainedProgram block loc) closing = some q) :
    ∃ node loc, block = .block node ∧
      q = ⟨[.block { node with closeStrip := closing }], none, true, some loc⟩ := by
  cases block with
  | block node =>
      cases loc with
      | none => exact ⟨node, node.loc, rfl, (Option.some.inj h).symm⟩
      | some loc => exact ⟨node, loc, rfl, (Option.some.inj h).symm⟩
  | mustache | decorator | decoratorBlock | inclusion | inclusionBlock | content | comment =>
      cases h

/-- The markers of an else tag. -/
theorem plain_of_writesSection {chains : Bool} {other : Option ElseSection}
    (h : g.WritesSection chains ls other) : ((other.map ElseSection.strip).getD {}).Plain := by
  cases h with
  | none => exact ⟨rfl, rfl, rfl⟩
  | plain _ => exact Strip.plain_ofDelimiters _ _
  | link hhead _ _ _ => exact plain_of_writesOpening hhead

variable (g) in
/-- The section that an else tag begins, as it is in the block.  The flag says that it may be a
link, which takes the markers of the closing tag. -/
inductive WritesInverse (closing : Strip) : Bool → List Lexeme → Option Program → Prop where
  | none {chains : Bool} : WritesInverse closing chains [] none
  | plain {chains : Bool} {l : Lexeme} {ls : List Lexeme} {body : List Statement}
      (h : g.WritesStatements ls body) :
      WritesInverse closing chains (l :: ls) (some (Builder.program body none))
  | link {ls : List Lexeme} {node : Block} {loc : Location} (hfilled : node.program.isSome)
      (h : closing.Plain → g.WritesLink ls node) :
      WritesInverse closing true ls (some ⟨[.block node], none, true, some loc⟩)

/-- What is written as an else section is written as the one that the block gets. -/
theorem inverse_of_writesSection {chains : Bool} {other : Option ElseSection}
    (h : g.WritesSection chains ls other) {decorator : Bool} {closing : Strip} {loc : Location}
    {inverse : Option Program}
    (hinverse : Builder.inverseProgram decorator closing loc other = .ok inverse) :
    g.WritesInverse closing chains ls inverse := by
  cases h with
  | none =>
      cases hinverse
      exact .none
  | plain h =>
      obtain rfl := Builder.eq_of_inverseProgram rfl hinverse
      exact .plain h
  | link hhead hbody hother hblock =>
      obtain ⟨q, hq, rfl⟩ := Builder.closeChain_of_inverseProgram rfl hinverse
      obtain ⟨node, loc, rfl, rfl⟩ := exists_of_closeChain hq
      refine .link ?_ fun hclosing => .mk hhead hbody hother hblock hclosing
      obtain ⟨decorator, inverse, node', -, hs, rfl⟩ := Builder.exists_of_block hblock
      rcases hs with hs | hs <;> cases hs
      rfl

/-- The node of an else section is written where the section is. -/
theorem row_of_writesInverse {chains : Bool} {closing : Strip} {inverse : Option Program}
    (h : g.WritesInverse closing chains ls inverse) (hclosing : closing.Plain) :
    g.WritesRow ls (inverse.toList.map .program) := by
  cases h with
  | none => exact .done
  | plain h => exact .skip (.one (.program h))
  | link _ h => exact .one (.chained (h hclosing))

/-- The sections of a block that is built, in the order of the source. -/
theorem sections_of_block {chains inverted : Bool} {head : BlockOpening} {body : List Statement}
    {other : Option ElseSection} {closing : Option BlockClosing} {x : Extent} {block : Statement}
    (hother : g.WritesSection chains ls other)
    (h : g.builder.block head (Builder.program body none) other closing inverted x = .ok block) :
    ∃ inverse, g.WritesInverse ((closing.map BlockClosing.strip).getD {}) chains ls inverse ∧
      (Node.statement block).ordered = head.call.nodes ∧
      ({ Builder.program body none with blockParams := head.blockParams } ::
        inverse.toList).Perm (Node.statement block).sections := by
  obtain ⟨decorator, inverse, node, hinverse, hs, hnode⟩ := Builder.exists_of_block h
  have hsections :
      (Node.statement block).sections = node.program.toList ++ node.inverse.toList := by
    rcases hs with rfl | rfl <;> rfl
  refine ⟨inverse, inverse_of_writesSection hother hinverse, ?_, ?_⟩
  · rcases hs with rfl | rfl <;> rw [hnode] <;> rfl
  · rw [hsections, hnode]
    cases inverted with
    | false => exact .refl _
    | true => exact (List.perm_append_singleton _ _).symm

/-- The parts of a block that is built. -/
theorem parts_of_block {chains inverted : Bool} {ls₀ : List Lexeme} {head : BlockOpening}
    {body : List Statement} {other : Option ElseSection} {closing : Option BlockClosing}
    {x : Extent} {block : Statement} (hhead : g.WritesRow ls₀ head.call.nodes)
    (hbody : g.WritesStatements ls body) (hother : g.WritesSection chains ls' other)
    (hclosing : ((closing.map BlockClosing.strip).getD {}).Plain)
    (h : g.builder.block head (Builder.program body none) other closing inverted x = .ok block) :
    g.WritesParts (ls₀ ++ (ls ++ ls')) (.statement block) := by
  obtain ⟨inverse, hinverse, hordered, hsections⟩ := sections_of_block hother h
  refine ⟨_, hsections, ?_⟩
  rw [hordered]
  exact hhead.append (.node (.program hbody) (row_of_writesInverse hinverse hclosing))

/-- A closed link of an else chain has the parts that it has unclosed. -/
theorem parts_of_writesLink {node : Block} (h : g.WritesLink ls node) :
    g.WritesParts ls (.statement (.block node)) := by
  cases h with
  | mk hhead hbody hother hblock hclosing =>
      have hstrip := plain_of_writesSection hother
      rw [← Builder.strip_linkClosing] at hstrip
      obtain ⟨sections, hsections, hrow⟩ :=
        parts_of_block (row_of_writesOpening hhead) hbody hother hstrip hblock
      exact ⟨sections, hsections, hrow⟩

end Grammar

namespace Builder

variable {b : Builder}

/-- A tag that is built, with a star or without. -/
theorem exists_of_mustache (opener : Text) (called : Call) (strip : Strip) (x : Extent) :
    ∃ escaped, b.mustache opener called strip x = .mustache ⟨called, escaped, strip, b.locate x⟩ ∨
      b.mustache opener called strip x = .decorator ⟨called, escaped, strip, b.locate x⟩ := by
  unfold mustache
  dsimp only
  split
  · exact ⟨_, .inr rfl⟩
  · exact ⟨_, .inl rfl⟩

/-- A raw block that is built. -/
theorem eq_of_rawBlock {called : Call} {body : List Statement} {name : Text} {x : Extent}
    {s : Statement} (h : b.rawBlock called body name x = .ok s) :
    s = .block ⟨called, some ⟨body, none, false, some (b.locate x)⟩, none, {}, {}, {},
      b.locate x⟩ := by
  obtain ⟨-, -, h⟩ := exists_of_bind_eq_ok h
  exact (Except.ok.inj h).symm

/-- A partial with a body that is built. -/
theorem eq_of_inclusionBlock {head : BlockOpening} {p : Program} {tail : BlockClosing}
    {x : Extent} {s : Statement} (h : b.inclusionBlock head p tail x = .ok s) :
    s = .inclusionBlock ⟨head.call, p, head.strip, tail.strip, b.locate x⟩ := by
  obtain ⟨-, -, h⟩ := exists_of_bind_eq_ok h
  exact (Except.ok.inj h).symm

end Builder

/-! ## Parts of all nodes -/

namespace Grammar

variable {g : Grammar} {ls : List Lexeme} {n : Node}

/-- The parts of a mustache are those of its call. -/
theorem parts_of_mustache {opener : Text} {called : Call} {strip : Strip} {x : Extent}
    (h : g.WritesRow ls called.nodes) :
    g.WritesParts ls (.statement (g.builder.mustache opener called strip x)) := by
  obtain ⟨escaped, hs | hs⟩ := g.builder.exists_of_mustache opener called strip x <;>
    exact hs ▸ .ordered h rfl

/-- **The parts of a statement are written in order.** -/
theorem parts_of_writesStatement {s : Statement} (h : g.WritesStatement ls s) :
    g.WritesParts ls (.statement s) := by
  cases h with
  | content | comment => exact .ordered .done rfl
  | plain h | unescaped h => exact parts_of_mustache (.skip ((row_of_writesCall h).behind _))
  | inclusion h => exact .ordered (row_tag (row_of_writesCall h)) rfl
  | rawBlock hcall hbody hblock =>
      obtain rfl := Builder.eq_of_rawBlock hblock
      exact ⟨[_], .refl _, .skip ((row_of_writesCall hcall).append
        (.skip ((WritesRow.one (.contents hbody)).behind _)))⟩
  | @block _ _ _ _ closing _ _ _ _ _ hhead hbody hother htail hblock =>
      obtain ⟨sections, hsections, hrow⟩ := parts_of_block (row_of_writesOpening hhead) hbody
        hother (by exact plain_of_writesClosing htail) hblock
      have hbehind := hrow.behind closing
      rw [List.append_assoc, List.append_assoc] at hbehind
      exact ⟨sections, hsections, hbehind⟩
  | inclusionBlock hhead hbody htail hblock =>
      obtain rfl := Builder.eq_of_inclusionBlock hblock
      exact ⟨[_], .refl _, (row_of_writesOpening hhead).append
        ((WritesRow.one (.program hbody)).behind _)⟩

/-- The parts of a node are written side by side by its tokens. -/
theorem parts_of_writesNode (hg : g.Literal) (h : g.WritesNode ls n) : g.WritesParts ls n := by
  cases h with
  | expr h => exact .ordered (ordered_of_writesExpr hg h) rfl
  | hash h hne => exact .ordered (row_of_writesPairs h) rfl
  | hashPair h => exact .ordered (.skip (.skip (.one (.expr h)))) rfl
  | statement h => exact parts_of_writesStatement h
  | link h => exact parts_of_writesLink h
  | program h => exact .ordered (row_of_writesStatements h) rfl
  | contents h => exact .ordered (row_of_writesContents h) rfl
  | chained h => exact .ordered (.one (.link h)) rfl

/-- Only a program without statements has no place. -/
theorem body_of_writesNode {p : Program} (h : g.WritesNode ls (.program p))
    (hloc : p.loc = none) : p.body = [] := by
  generalize hn : Node.program p = n at h
  cases h with
  | @program _ body _ _ =>
      cases hn
      cases body with
      | nil => rfl
      | cons s rest => cases rest <;> cases hloc
  | contents | chained =>
      cases hn
      cases hloc
  | expr | hash | hashPair | statement | link => cases hn

/-- A part of a node has its tokens somewhere in those of the node. -/
theorem exists_of_mem_parts {m : Node} (h : g.WritesParts ls m) (hn : n ∈ m.parts) :
    ∃ before own after, ls = before ++ (own ++ after) ∧ g.WritesNode own n := by
  obtain ⟨sections, hsections, hrow⟩ := h
  have hmem : n ∈ m.ordered ++ sections.map Node.program :=
    (((hsections.map Node.program).append_left _).mem_iff).mpr hn
  exact hrow.exists_of_mem hmem

/-- The tokens of a template have those of each node in it somewhere. -/
theorem exists_of_within (hg : g.Literal) {whole : List Lexeme} {root : Node}
    (hroot : g.WritesNode whole root) (hn : n.Within root) :
    ∃ before own after, whole = before ++ (own ++ after) ∧ g.WritesNode own n := by
  induction hn with
  | refl => exact ⟨[], whole, [], (List.append_nil whole).symm, hroot⟩
  | part hn _ ih =>
      obtain ⟨before, own, after, rfl, hown⟩ := ih hroot
      obtain ⟨before', own', after', rfl, hown'⟩ :=
        exists_of_mem_parts (parts_of_writesNode hg hown) hn
      exact ⟨before ++ before', own', after' ++ after, by simp only [List.append_assoc], hown'⟩

/-- A program is a node that all tokens write. -/
theorem writesNode_of_writesProgram {p : Program} (h : g.WritesProgram ls p) :
    g.WritesNode ls (.program p) := by
  cases h with
  | mk h => exact .program h

end Grammar

/-! ## Templates -/

/-- Lists and hashes are built as what they are. -/
def Options.Literal (o : Options) : Prop :=
  (∀ build, o.brackets ≠ .custom build) ∧ ∀ build, o.hashes ≠ .custom build

theorem Options.literal_default : Options.Literal {} := ⟨nofun, nofun⟩

theorem Options.Literal.grammar {o : Options} (h : o.Literal) (text : Text) :
    (o.grammar text).Literal := h

/-- Some tokens of an accepted template write each node of its tree. -/
theorem exists_of_parseRaw {o : Options} {text : Text} {p : Program} (ho : o.Literal)
    (h : parseRaw o text = .ok p) {n : Node} (hn : n.Within (.program p)) :
    ∃ before own after, (tokenize o.brackets.isList text).lexemes = before ++ (own ++ after) ∧
      (o.grammar text).WritesNode own n :=
  Grammar.exists_of_within (ho.grammar text)
    (Grammar.writesNode_of_writesProgram (writesProgram_of_parseRaw h)) hn

end Stache
