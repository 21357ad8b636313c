import Mathlib
import Stache.Proofs.Grammar.Nodes

/-!
# Trees are well formed

A tree that the grammar makes is well formed before its whitespace is looked at:
nothing is trimmed in it, no tag stands alone, and its blocks have the sections
that they may have.  `Node.WellFormed` says this of one node, and
`wellFormed_of_parseRaw` of all nodes of an accepted template.
-/

namespace Stache

/-! ## Well-formed nodes -/

/-- A section is no link of an else chain, or it is the link and nothing else. -/
def Program.Linked (p : Program) : Prop :=
  p.chained = true → ∃ link, p.body = [.block link] ∧ link.program.isSome

/-- A block as the grammar makes it. -/
structure Block.WellFormed (b : Block) : Prop where
  strip : b.openStrip.Plain ∧ b.inverseStrip.Plain ∧ b.closeStrip.Plain
  filled : b.program.isSome ∨ b.inverse.isSome
  /-- Only the inverse may be a link. -/
  program : ∀ p ∈ b.program, p.chained = false
  inverse : ∀ p ∈ b.inverse, p.Linked

/-- A node as the grammar makes it. -/
def Node.WellFormed : Node → Prop
  | .program p => p.loc = none → p.body = []
  | .statement (.mustache node) | .statement (.decorator node) => node.strip.Plain
  | .statement (.block node) => node.WellFormed
  | .statement (.decoratorBlock node) =>
      node.WellFormed ∧ node.program.isSome ∧ node.inverse = none
  | .statement (.inclusion node) => node.strip.Plain ∧ node.indent = []
  | .statement (.inclusionBlock node) =>
      node.openStrip.Plain ∧ node.closeStrip.Plain ∧ node.program.chained = false
  | .statement (.content node) => node.Fresh ∧ node.value ≠ []
  | .statement (.comment node) => node.strip.Plain
  | .expr (.path p) => p.head = none → p.tail = []
  | _ => True

namespace Grammar

variable {g : Grammar} {ls : List Lexeme}

/-! ## Blocks -/

/-- What an else tag begins is a link or no link. -/
theorem linked_of_writesInverse {chains : Bool} {closing : Strip} {inverse : Option Program}
    (h : g.WritesInverse closing chains ls inverse) :
    (∀ p ∈ inverse, p.Linked) ∧ (chains = false → ∀ p ∈ inverse, p.chained = false) := by
  cases h with
  | none => exact ⟨nofun, fun _ => nofun⟩
  | plain _ =>
      refine ⟨?_, fun _ => ?_⟩
      · rintro p ⟨⟩
        nofun
      · rintro p ⟨⟩
        rfl
  | link hfilled _ =>
      refine ⟨?_, nofun⟩
      rintro p ⟨⟩ -
      exact ⟨_, rfl, hfilled⟩

end Grammar

namespace Builder

/-- A block that is built is a decorator only if a `*` opens it, and then it has no else
section. -/
theorem exists_of_decoratorBlock {b : Builder} {head : BlockOpening} {program : Program}
    {other : Option ElseSection} {closing : Option BlockClosing} {inverted : Bool} {x : Extent}
    {node : Block}
    (h : b.block head program other closing inverted x = .ok (.decoratorBlock node)) :
    '*' ∈ head.opener ∧ other = none := by
  rw [block] at h
  dsimp only at h
  have hbuilt : ∃ inverse node',
      inverseProgram (head.opener.contains '*') ((closing.map BlockClosing.strip).getD {})
          (b.locate x) other = .ok inverse ∧
        (if head.opener.contains '*' then Statement.decoratorBlock node' else .block node') =
          .decoratorBlock node := by
    split at h
    · obtain ⟨-, -, h⟩ := exists_of_bind_eq_ok h
      obtain ⟨inverse, hinverse, h⟩ := exists_of_bind_eq_ok h
      exact ⟨inverse, _, hinverse, Except.ok.inj h⟩
    · obtain ⟨inverse, hinverse, h⟩ := exists_of_bind_eq_ok h
      exact ⟨inverse, _, hinverse, Except.ok.inj h⟩
  obtain ⟨inverse, node', hinverse, hnode⟩ := hbuilt
  cases hstar : head.opener.contains '*' with
  | false =>
      rw [hstar] at hnode
      cases hnode
  | true =>
      refine ⟨List.contains_iff_mem.mp hstar, ?_⟩
      cases other with
      | none => rfl
      | some other =>
          rw [hstar, inverseProgram] at hinverse
          cases hinverse

end Builder

namespace Grammar

variable {g : Grammar} {ls ls' : List Lexeme}

/-- A block that is built is well formed. -/
theorem wellFormed_of_block {chains inverted : Bool} {head : BlockOpening} {body : List Statement}
    {other : Option ElseSection} {closing : Option BlockClosing} {x : Extent} {block : Statement}
    (hother : g.WritesSection chains ls' other) (hchains : inverted = true → chains = false)
    (hstrip : head.strip.Plain ∧ ((closing.map BlockClosing.strip).getD {}).Plain)
    (hstar : inverted = true → '*' ∉ head.opener)
    (h : g.builder.block head (Builder.program body none) other closing inverted x = .ok block) :
    (Node.statement block).WellFormed := by
  obtain ⟨decorator, inverse, node, hinverse, hs, hnode⟩ := Builder.exists_of_block h
  obtain ⟨hlinked, hchained⟩ := linked_of_writesInverse (inverse_of_writesSection hother hinverse)
  have hplain : head.strip.Plain ∧ ((other.map ElseSection.strip).getD {}).Plain ∧
      ((closing.map BlockClosing.strip).getD {}).Plain :=
    ⟨hstrip.1, plain_of_writesSection hother, hstrip.2⟩
  have hwf : node.WellFormed := by
    subst hnode
    cases inverted with
    | false => exact ⟨hplain, .inl rfl, by rintro p ⟨⟩; rfl, hlinked⟩
    | true => exact ⟨hplain, .inr rfl, hchained (hchains rfl), by rintro p ⟨⟩; nofun⟩
  rcases hs with rfl | rfl
  · exact hwf
  · obtain ⟨hmem, rfl⟩ := Builder.exists_of_decoratorBlock h
    cases inverted with
    | true => exact absurd hmem (hstar rfl)
    | false =>
        cases hinverse
        refine ⟨hwf, ?_, ?_⟩ <;> rw [hnode] <;> rfl

/-! ## All nodes -/

/-- The tokens are as the scanner makes them. -/
def AllScanned (ls : List Lexeme) : Prop :=
  ∀ l ∈ ls, l.token.Filled ∧ l.token.Unstarred

theorem AllScanned.left (h : AllScanned (ls ++ ls')) : AllScanned ls :=
  (List.forall_mem_append.mp h).1

/-- An inverted block is not opened with a `*`. -/
theorem not_mem_of_writesOpening {inverted : Bool} {head : BlockOpening}
    (h : g.WritesOpening (if inverted then .inverse else .block) ls head) (hls : AllScanned ls)
    (hinverted : inverted = true) : '*' ∉ head.opener := by
  subst hinverted
  cases h with
  | mk _ _ _ => exact (hls _ List.mem_cons_self).2

theorem wellFormed_of_writesStatement {s : Statement} (h : g.WritesStatement ls s)
    (hls : AllScanned ls) : (Node.statement s).WellFormed := by
  cases h with
  | content => exact ⟨⟨rfl, rfl, rfl⟩, (hls _ List.mem_cons_self).1⟩
  | comment => exact Strip.plain_ofDelimiters _ _
  | plain h | unescaped h =>
      obtain ⟨escaped, hs | hs⟩ := g.builder.exists_of_mustache _ _ _ _ <;> rw [hs] <;>
        exact Strip.plain_ofDelimiters _ _
  | inclusion h => exact ⟨Strip.plain_ofDelimiters _ _, rfl⟩
  | rawBlock hcall hbody hblock =>
      obtain rfl := Builder.eq_of_rawBlock hblock
      have hplain : Strip.Plain {} := ⟨rfl, rfl, rfl⟩
      exact ⟨⟨hplain, hplain, hplain⟩, .inl rfl, by rintro p ⟨⟩; rfl, nofun⟩
  | block hhead hbody hother htail hblock =>
      refine wellFormed_of_block hother ?_ ⟨plain_of_writesOpening hhead, ?_⟩
        (not_mem_of_writesOpening hhead hls.left) hblock
      · rintro rfl
        rfl
      · exact plain_of_writesClosing htail
  | inclusionBlock hhead hbody htail hblock =>
      obtain rfl := Builder.eq_of_inclusionBlock hblock
      exact ⟨plain_of_writesOpening hhead, plain_of_writesClosing htail, rfl⟩

theorem wellFormed_of_writesLink {node : Block} (h : g.WritesLink ls node) :
    node.WellFormed := by
  cases h with
  | mk hhead hbody hother hblock hclosing =>
      have hplain := plain_of_writesSection hother
      rw [← Builder.strip_linkClosing] at hplain
      have hwf : (Node.statement (.block _)).WellFormed :=
        wellFormed_of_block hother (absurd · Bool.false_ne_true)
          ⟨plain_of_writesOpening hhead, hplain⟩ (absurd · Bool.false_ne_true) hblock
      exact ⟨⟨hwf.strip.1, hwf.strip.2.1, hclosing⟩, hwf.filled, hwf.program, hwf.inverse⟩

theorem wellFormed_of_writesExpr (hg : g.Literal) {e : Expr} (h : g.WritesExpr ls e) :
    (Node.expr e).WellFormed := by
  cases h with
  | path _ hpath | data _ hpath | subPath _ _ hpath =>
      intro hnone
      rcases head_of_path hpath with ⟨sub, -, hhead⟩ | ⟨-, ⟨name, hhead⟩ | ⟨-, htail⟩⟩
      · rw [hhead] at hnone
        cases hnone
      · rw [hhead] at hnone
        cases hnone
      · exact htail
  | hash h _ =>
      rw [hashLiteral_of_literal hg]
      trivial
  | array h =>
      rw [array_of_literal hg]
      trivial
  | sub | string | number | boolean | undefined | null => trivial

/-- What some tokens of a template write is well formed. -/
theorem wellFormed_of_writesNode (hg : g.Literal) {n : Node} (h : g.WritesNode ls n)
    (hls : AllScanned ls) : n.WellFormed := by
  cases n with
  | program p => exact body_of_writesNode h
  | statement s =>
      cases h with
      | statement h => exact wellFormed_of_writesStatement h hls
      | link h => exact wellFormed_of_writesLink h
  | expr e =>
      cases h with
      | expr h => exact wellFormed_of_writesExpr hg h
  | hash | hashPair => trivial

end Grammar

/-! ## Templates -/

/-- The tree of an accepted template is well formed in all its nodes, and it is no link. -/
theorem wellFormed_of_parseRaw {o : Options} {text : Text} {p : Program} (ho : o.Literal)
    (h : parseRaw o text = .ok p) :
    p.chained = false ∧ ∀ n : Node, n.Within (.program p) → n.WellFormed := by
  refine ⟨?_, fun n hn => ?_⟩
  · cases writesProgram_of_parseRaw h
    rfl
  · obtain ⟨before, own, after, hlexemes, hown⟩ := exists_of_parseRaw ho h hn
    refine Grammar.wellFormed_of_writesNode (ho.grammar text) hown fun l hl => ?_
    have hmem : l ∈ (tokenize o.brackets.isList text).lexemes := by
      rw [hlexemes]
      simp [hl]
    exact ⟨filled_tokenize hmem, unstarred_tokenize hmem⟩

/-- The template `{{#a}}b{{else c}}d{{else}}e{{/a}}`. -/
def linkedTemplate : Text :=
  "\x7b\x7b#a\x7d\x7db\x7b\x7belse c\x7d\x7dd\x7b\x7belse\x7d\x7de\x7b\x7b/a\x7d\x7d".toList

/-- Its tree has a link in it, and is well formed. -/
theorem wellFormed_linkedTemplate :
    Options.Literal {} ∧ ∃ p, parseRaw {} linkedTemplate = .ok p ∧
      p.chained = false ∧ ∀ n : Node, n.Within (.program p) → n.WellFormed := by
  have hliteral : Options.Literal {} := ⟨nofun, nofun⟩
  have hok : (parseRaw {} linkedTemplate).toBool = true := by cbv
  refine ⟨hliteral, ?_⟩
  cases hp : parseRaw {} linkedTemplate with
  | error e =>
      rw [hp] at hok
      cases hok
  | ok p => exact ⟨p, rfl, wellFormed_of_parseRaw hliteral hp⟩

end Stache
