import Stache.Parse
import Stache.Proofs.Grammar.Sound
import Stache.Proofs.Token.Spelling
import Stache.Proofs.Tree.Spelled

/-!
# Templates spell their trees

The row of an accepted template spells the tree that the grammar makes of it:
each text and each tag of the row is in its place in the tree, with the markers
that the row has for it (`spelled_of_writesProgram`).
-/

namespace Stache

/-! ## The inside of tags -/

namespace Grammar

theorem inner_of_writesTail {ls : List Lexeme} {more : List Segment} (h : WritesTail ls more) :
    Inner ls := by
  induction h with
  | nil => exact .nil
  | cons _ ih => exact .cons rfl (.cons rfl ih)

/-- A path lies inside of its tag. -/
theorem inner_of_writesSegments {ls : List Lexeme} {segments : List Segment}
    (h : WritesSegments ls segments) : Inner ls := by
  cases h with
  | mk h => exact .cons rfl (inner_of_writesTail h)

theorem inner_of_writesIdents {ls : List Lexeme} {names : List Text} (h : WritesIdents ls names) :
    Inner ls := by
  induction h with
  | nil => exact .nil
  | cons _ ih => exact .cons rfl ih

/-- Block parameters lie inside of their tag. -/
theorem inner_of_writesNames {ls : List Lexeme} {names : Option (List Text)}
    (h : WritesNames ls names) : Inner ls := by
  cases h with
  | none => exact .nil
  | some h _ => exact .cons rfl ((inner_of_writesIdents h).append (.cons rfl .nil))

/-- Parentheses lie inside of the tag that their inside lies in. -/
theorem inner_parens {s s' : Span} {ls : List Lexeme} (h : Inner ls) : Inner (parens s ls s') :=
  .cons rfl (h.append (.cons rfl .nil))

theorem inner_brackets {s s' : Span} {ls : List Lexeme} (h : Inner ls) :
    Inner (brackets s ls s') := .cons rfl (h.append (.cons rfl .nil))

variable {g : Grammar}

mutual

/-- An expression lies inside of its tag. -/
theorem inner_of_writesExpr : ∀ {ls : List Lexeme} {e : Expr}, g.WritesExpr ls e → Inner ls
  | _, _, .path h _ => inner_of_writesSegments h
  | _, _, .data h _ => .cons rfl (inner_of_writesSegments h)
  | _, _, .hash h _ => inner_parens (inner_of_writesPairs h)
  | _, _, .sub h => inner_parens (inner_of_writesCall h)
  | _, _, .subPath h hmore _ =>
      (inner_parens (inner_of_writesCall h)).append (.cons rfl (inner_of_writesSegments hmore))
  | _, _, .array h => inner_brackets (inner_of_writesExprs h)
  | _, _, .string | _, _, .number | _, _, .boolean | _, _, .undefined | _, _, .null =>
      .cons rfl .nil

/-- A call lies inside of its tag. -/
theorem inner_of_writesCall : ∀ {ls : List Lexeme} {called : Call}, g.WritesCall ls called →
    Inner ls
  | _, _, .mk hhead hparams hpairs =>
      (inner_of_writesExpr hhead).append
        ((inner_of_writesExprs hparams).append (inner_of_writesPairs hpairs))

theorem inner_of_writesExprs : ∀ {ls : List Lexeme} {list : List Expr}, g.WritesExprs ls list →
    Inner ls
  | _, _, .nil => .nil
  | _, _, .cons he h => (inner_of_writesExpr he).append (inner_of_writesExprs h)

theorem inner_of_writesPairs : ∀ {ls : List Lexeme} {pairs : List HashPair},
    g.WritesPairs ls pairs → Inner ls
  | _, _, .nil => .nil
  | _, _, .cons hvalue h =>
      .cons rfl (.cons rfl ((inner_of_writesExpr hvalue).append (inner_of_writesPairs h)))

end

end Grammar

/-! ## Rows of tags -/

/-- In any template, some tokens give the parts `row`. -/
def HasRow (ls : List Lexeme) (row : List Part) : Prop :=
  ∀ rest, rowOf (ls ++ rest) = row ++ rowOf rest

theorem HasRow.nil : HasRow [] [] := fun _ => rfl

/-- The row of two lists is that of both, one behind the other. -/
theorem HasRow.append {ls ls' : List Lexeme} {row row' : List Part} (h : HasRow ls row)
    (h' : HasRow ls' row') : HasRow (ls ++ ls') (row ++ row') := by
  intro rest
  rw [List.append_assoc, h, h', List.append_assoc]

theorem HasRow.cons {ls ls' : List Lexeme} {part : Part} {row' : List Part} (h : HasRow ls [part])
    (h' : HasRow ls' row') : HasRow (ls ++ ls') (part :: row') := h.append h'

/-- The row of a whole template. -/
theorem HasRow.rowOf_eq {ls : List Lexeme} {row : List Part} (h : HasRow ls row) :
    rowOf ls = row := by
  have hrow := h []
  rw [List.append_nil] at hrow
  exact hrow.trans (List.append_nil row)

/-- Delimiters mark the ends of a tag and nothing else. -/
theorem Strip.plain_ofDelimiters (opener closer : Text) :
    (Strip.ofDelimiters opener closer).Plain :=
  ⟨rfl, rfl, rfl⟩

namespace Grammar

variable {g : Grammar} {ls : List Lexeme}

/-- A tag is one part of the row. -/
theorem hasRow_delimited {kind : Opener} {opener closer : Text} {last : Token} {s s' : Span}
    (hlast : last = .closer closer ∨ last = .unescapedCloser closer) (h : Inner ls)
    (hls : AllDelimited (⟨.opener kind opener, s⟩ :: (ls ++ [⟨last, s'⟩]))) :
    HasRow (⟨.opener kind opener, s⟩ :: (ls ++ [⟨last, s'⟩]))
      [(Strip.ofDelimiters opener closer).part kind.role] := by
  have hopener : (Token.opener kind opener).Delimited := hls ⟨_, s⟩ List.mem_cons_self
  have hcloser : last.Delimited := hls ⟨_, s'⟩ (by simp)
  intro rest
  show rowBehind kind.role (opensMarked opener) ((ls ++ [_]) ++ rest) = _
  rw [List.append_assoc, rowBehind_inner h]
  rcases hlast with rfl | rfl
  · rw [part_ofDelimiters hopener hcloser]
    rfl
  · rw [part_ofDelimiters hopener hcloser]
    rfl

/-- A tag is one part of the row, with the markers of its delimiters. -/
theorem hasRow_tag {kind : Opener} {opener closer : Text} {s s' : Span} (h : Inner ls)
    (hls : AllDelimited (tag kind opener s ls closer s')) :
    HasRow (tag kind opener s ls closer s')
      [(Strip.ofDelimiters opener closer).part kind.role] := hasRow_delimited (.inl rfl) h hls

/-- A comment is one part of the row. -/
theorem hasRow_comment {t : Text} {s : Span} (hls : AllDelimited [⟨.comment t, s⟩]) :
    HasRow [⟨.comment t, s⟩] [(Strip.ofDelimiters t t).part .leaf] := by
  obtain ⟨hopen, hclose⟩ : (Token.comment t).Delimited := hls ⟨_, s⟩ List.mem_cons_self
  rw [part_ofDelimiters hopen hclose]
  exact fun _ => rfl

/-- An else tag is one part of the row. -/
theorem hasRow_elseTag {t : Text} {s : Span} (hls : AllDelimited [⟨.elseTag t, s⟩]) :
    HasRow [⟨.elseTag t, s⟩] [(Strip.ofDelimiters t t).part .middle] := by
  obtain ⟨hopen, hclose⟩ : (Token.elseTag t).Delimited := hls ⟨_, s⟩ List.mem_cons_self
  rw [part_ofDelimiters hopen hclose]
  exact fun _ => rfl

/-- A raw block is an opening tag, its texts and a closing tag, all without markers. -/
theorem hasRow_rawBlock {s s' s'' : Span} {ls' : List Lexeme} {row : List Part} {name : Text}
    (h : Inner ls) (hrow : HasRow ls' row) :
    HasRow (⟨.rawOpener, s⟩ :: (ls ++ ⟨.rawCloser, s'⟩ :: (ls' ++ [⟨.rawEnd name, s''⟩])))
      (Strip.part {} (.opening false) :: (row ++ [Strip.part {} .closing])) := by
  intro rest
  show rowBehind (.opening false) false ((ls ++ _) ++ rest) = _
  rw [List.append_assoc, rowBehind_inner h]
  show Strip.part {} (.opening false) :: rowOf ((ls' ++ [_]) ++ rest) = _
  rw [List.append_assoc, hrow]
  exact congrArg (List.cons _) (List.append_assoc row [_] (rowOf rest)).symm

/-- The markers that a block remembers of its opening tag are those in the row. -/
theorem spelled_opening {kind : Opener} {head : BlockOpening} (h : g.WritesOpening kind ls head)
    (hls : AllDelimited ls) : head.strip.Plain ∧ HasRow ls [head.strip.part kind.role] := by
  cases h with
  | mk hcall hnames _ =>
      exact ⟨Strip.plain_ofDelimiters _ _,
        hasRow_tag ((inner_of_writesCall hcall).append (inner_of_writesNames hnames)) hls⟩

/-- The markers that a block remembers of its closing tag are those in the row. -/
theorem spelled_closing {tail : BlockClosing} (h : g.WritesClosing ls tail)
    (hls : AllDelimited ls) : tail.strip.Plain ∧ HasRow ls [tail.strip.part .closing] := by
  cases h with
  | mk h => exact ⟨Strip.plain_ofDelimiters _ _, hasRow_tag (inner_of_writesExpr h) hls⟩

end Grammar

/-! ## What the builder makes -/

/-- A row spells an else section, whatever markers a first link is going to
remember in place of a closing tag. -/
def ElseSection.Spelled (row : List Part) : Option ElseSection → Prop
  | none => row = []
  | some other =>
      other.strip.Plain ∧ if other.chained then
        ∀ closing q, closing.Plain → Builder.closeChain other.program closing = some q →
          Section.Spelled other.strip closing row (some q)
      else ∃ row', row = other.strip.part .middle :: row' ∧ Program.Spelled row' other.program

namespace Builder

variable {b : Builder}

/-- An else section that is no chain goes into the block as it is. -/
theorem eq_of_inverseProgram {other : ElseSection} (hchained : other.chained = false)
    {decorator : Bool} {closing : Strip} {loc : Location} {inverse : Option Program}
    (h : inverseProgram decorator closing loc (some other) = .ok inverse) :
    inverse = some other.program := by
  rw [inverseProgram] at h
  split at h
  · cases h
  · rw [hchained] at h
    exact (Except.ok.inj h).symm

/-- A chain goes into the block with the closing markers of the block. -/
theorem closeChain_of_inverseProgram {other : ElseSection} (hchained : other.chained = true)
    {decorator : Bool} {closing : Strip} {loc : Location} {inverse : Option Program}
    (h : inverseProgram decorator closing loc (some other) = .ok inverse) :
    ∃ q, closeChain other.program closing = some q ∧ inverse = some q := by
  rw [inverseProgram] at h
  split at h
  · cases h
  · split at h
    · next q hq => exact ⟨q, hq, (Except.ok.inj h).symm⟩
    · cases h

/-- The else section of a block that is built. -/
theorem spelled_of_inverseProgram {row : List Part} {other : Option ElseSection} {decorator : Bool}
    {closing : Strip} {loc : Location} {inverse : Option Program}
    (hother : ElseSection.Spelled row other) (hclosing : closing.Plain)
    (h : inverseProgram decorator closing loc other = .ok inverse) :
    Section.Spelled ((other.map ElseSection.strip).getD {}) closing row inverse := by
  cases other with
  | none =>
      cases h
      obtain rfl : row = [] := hother
      exact .none
  | some other =>
      obtain ⟨strip, program, chained⟩ := other
      obtain ⟨-, hother⟩ := hother
      cases chained with
      | false =>
          obtain rfl := eq_of_inverseProgram rfl h
          obtain ⟨row', rfl, hp⟩ := hother
          exact .plain hp
      | true =>
          obtain ⟨q, hq, rfl⟩ := closeChain_of_inverseProgram rfl h
          exact hother closing q hclosing hq

/-- What the builder makes of a block is a block, with a star or without. -/
theorem block_or_decoratorBlock {decorator : Bool} {node : Block} {s : Statement}
    (h : Except.ok (if decorator then .decoratorBlock node else .block node) =
      (Except.ok s : Except BuildError Statement)) :
    s = .block node ∨ s = .decoratorBlock node := by
  cases decorator with
  | true => exact .inr (Except.ok.inj h).symm
  | false => exact .inl (Except.ok.inj h).symm

/-- The parts of a block that is built. -/
theorem exists_of_block {head : BlockOpening} {program : Program} {other : Option ElseSection}
    {closing : Option BlockClosing} {inverted : Bool} {x : Extent} {s : Statement}
    (h : b.block head program other closing inverted x = .ok s) :
    ∃ decorator inverse node,
      inverseProgram decorator ((closing.map BlockClosing.strip).getD {}) (b.locate x) other =
        .ok inverse ∧
      (s = .block node ∨ s = .decoratorBlock node) ∧
      node =
        { call := head.call
          program :=
            if inverted then inverse else some { program with blockParams := head.blockParams }
          inverse :=
            if inverted then some { program with blockParams := head.blockParams } else inverse
          openStrip := head.strip
          inverseStrip := (other.map ElseSection.strip).getD {}
          closeStrip := (closing.map BlockClosing.strip).getD {}
          loc := b.locate x } := by
  rw [block] at h
  dsimp only at h
  split at h
  · obtain ⟨-, -, h⟩ := exists_of_bind_eq_ok h
    obtain ⟨inverse, hinverse, h⟩ := exists_of_bind_eq_ok h
    exact ⟨_, inverse, _, hinverse, block_or_decoratorBlock h, rfl⟩
  · obtain ⟨inverse, hinverse, h⟩ := exists_of_bind_eq_ok h
    exact ⟨_, inverse, _, hinverse, block_or_decoratorBlock h, rfl⟩

end Builder

/-! ## Statements -/

namespace Builder

variable {b : Builder} {row : List Part}

/-- A mustache is spelled by its tag. -/
theorem spelled_mustache {opener : Text} {called : Call} {strip : Strip} {x : Extent}
    (h : strip.Plain) :
    Statement.Spelled [strip.part .leaf] (b.mustache opener called strip x) := by
  unfold mustache
  dsimp only
  split
  · exact @Statement.Spelled.decorator ⟨called, _, strip, _⟩ h
  · exact @Statement.Spelled.mustache ⟨called, _, strip, _⟩ h

/-- The name in the closing tag of a raw block leaves no trace. -/
theorem spelled_of_rawBlock {called : Call} {body : List Statement} {name : Text} {x : Extent}
    {s : Statement} (hbody : Body.Spelled row body)
    (h : b.rawBlock called body name x = .ok s) :
    Statement.Spelled (Strip.part {} (.opening false) :: (row ++ [Strip.part {} .closing])) s := by
  obtain ⟨-, -, h⟩ := exists_of_bind_eq_ok h
  cases h
  have hplain : Strip.Plain {} := ⟨rfl, rfl, rfl⟩
  exact .block (.main ⟨hplain, hplain, hplain⟩ (.mk hbody) .none)

theorem plain_of_spelled {other : Option ElseSection} (h : ElseSection.Spelled row other) :
    ((other.map ElseSection.strip).getD {}).Plain := by
  cases other with
  | none => exact ⟨rfl, rfl, rfl⟩
  | some other => exact h.1

/-- A block, from its main section and its else section. -/
theorem spelled_of_block {row' : List Part} {head : BlockOpening} {body : List Statement}
    {other : Option ElseSection} {tail : BlockClosing} {inverted : Bool} {x : Extent}
    {s : Statement} (hhead : head.strip.Plain) (hbody : Body.Spelled row body)
    (hother : ElseSection.Spelled row' other) (htail : tail.strip.Plain)
    (hchained : ∀ o ∈ other, inverted = true → o.chained = false)
    (h : b.block head (Builder.program body none) other (some tail) inverted x = .ok s) :
    Statement.Spelled
      (head.strip.part (.opening inverted) :: (row ++ (row' ++ [tail.strip.part .closing]))) s := by
  obtain ⟨decorator, inverse, node, hinverse, hs, hnode⟩ := exists_of_block h
  have hstrip := And.intro hhead (And.intro (plain_of_spelled hother) htail)
  have hspelled : Block.Spelled
      (head.strip.part (.opening inverted) :: (row ++ (row' ++ [tail.strip.part .closing])))
      node := by
    subst hnode
    cases inverted with
    | false => exact .main hstrip (.mk hbody) (spelled_of_inverseProgram hother htail hinverse)
    | true =>
        cases other with
        | none =>
            cases hinverse
            obtain rfl : row' = [] := hother
            exact .inverted hstrip (.mk hbody)
        | some other =>
            obtain ⟨strip, program, chained⟩ := other
            obtain rfl : chained = false := hchained _ rfl rfl
            obtain ⟨row'', rfl, hq⟩ := hother.2
            obtain rfl := eq_of_inverseProgram rfl hinverse
            exact .invertedElse hstrip (.mk hbody) hq
  rcases hs with rfl | rfl
  · exact .block hspelled
  · exact .decoratorBlock hspelled

/-- A partial with a body. -/
theorem spelled_of_inclusionBlock {head : BlockOpening} {body : List Statement}
    {tail : BlockClosing} {x : Extent} {s : Statement} (hhead : head.strip.Plain)
    (hbody : Body.Spelled row body) (htail : tail.strip.Plain)
    (h : b.inclusionBlock head (Builder.program body none) tail x = .ok s) :
    Statement.Spelled
      (head.strip.part (.opening false) :: (row ++ [tail.strip.part .closing])) s := by
  obtain ⟨-, -, h⟩ := exists_of_bind_eq_ok h
  cases h
  exact .inclusionBlock ⟨hhead, htail⟩ (.mk hbody)

/-- What stands in for the closing tag of a link has the markers of the else tag
behind it. -/
theorem strip_linkClosing (other : Option ElseSection) :
    ((other.map fun s => (⟨none, s.strip⟩ : BlockClosing)).map BlockClosing.strip).getD {} =
      (other.map ElseSection.strip).getD {} := by
  cases other <;> rfl

/-- A link of an else chain, once the block around it has handed on the markers
`closing`. -/
theorem spelled_of_link {row' : List Part} {head : BlockOpening} {body : List Statement}
    {other : Option ElseSection} {x : Extent} {block : Statement} {loc : Option Location}
    {closing : Strip} {q : Program} (hhead : head.strip.Plain) (hbody : Body.Spelled row body)
    (hother : ElseSection.Spelled row' other)
    (hblock : b.block head (Builder.program body none) other
      (other.map fun s => (⟨none, s.strip⟩ : BlockClosing)) false x = .ok block)
    (hclosing : closing.Plain) (hq : closeChain (chainedProgram block loc) closing = some q) :
    Section.Spelled head.strip closing (head.strip.part .link :: (row ++ row')) (some q) := by
  obtain ⟨decorator, inverse, node, hinverse, hs, rfl⟩ := exists_of_block hblock
  have hplain := plain_of_spelled hother
  rw [strip_linkClosing] at hinverse
  rcases hs with rfl | rfl
  · cases hq
    exact .link ⟨hhead, hplain, hclosing⟩ (.mk hbody)
      (spelled_of_inverseProgram hother hplain hinverse)
  · cases hq

end Builder

namespace Grammar

variable {g : Grammar}

theorem role_ite (inverted : Bool) :
    (if inverted then Opener.inverse else .block).role = .opening inverted := by
  cases inverted <;> rfl

/-- An inverted block has no else chain. -/
theorem chained_of_writesSection {inverted : Bool} {ls : List Lexeme} {other : Option ElseSection}
    (h : g.WritesSection (!inverted) ls other) :
    ∀ o ∈ other, inverted = true → o.chained = false := by
  intro o ho hinverted
  subst hinverted
  cases h with
  | none => cases ho
  | plain _ =>
      cases ho
      rfl

/-- Texts of a raw block are spelled in order. -/
theorem spelled_of_writesContents {ls : List Lexeme} {body : List Statement}
    (h : g.WritesContents ls body) : ∃ row, HasRow ls row ∧ Body.Spelled row body := by
  induction h with
  | nil => exact ⟨[], .nil, .nil⟩
  | cons _ ih =>
      obtain ⟨row, hrow, hbody⟩ := ih
      refine ⟨_, fun rest => ?_, .cons (.content ⟨rfl, rfl, rfl⟩) hbody⟩
      exact congrArg (List.cons _) (hrow rest)

mutual

/-- **The row of some statements spells them.** -/
theorem spelled_of_writesStatements : ∀ {ls : List Lexeme} {body : List Statement},
    g.WritesStatements ls body → AllDelimited ls → ∃ row, HasRow ls row ∧ Body.Spelled row body
  | _, _, .nil, _ => ⟨[], .nil, .nil⟩
  | _, _, .cons hs h, hls => by
      obtain ⟨row, hrow, hs⟩ := spelled_of_writesStatement hs hls.left
      obtain ⟨row', hrow', hr⟩ := spelled_of_writesStatements h hls.right
      exact ⟨_, hrow.append hrow', .cons hs hr⟩

/-- The row of a statement spells it. -/
theorem spelled_of_writesStatement : ∀ {ls : List Lexeme} {s : Statement},
    g.WritesStatement ls s → AllDelimited ls → ∃ row, HasRow ls row ∧ Statement.Spelled row s
  | _, _, .content, _ => ⟨_, fun _ => rfl, .content ⟨rfl, rfl, rfl⟩⟩
  | _, _, .comment, hls => ⟨_, hasRow_comment hls,
      @Statement.Spelled.comment ⟨_, .ofDelimiters _ _, _⟩ (Strip.plain_ofDelimiters _ _)⟩
  | _, _, .plain h, hls =>
      ⟨_, hasRow_tag (inner_of_writesCall h) hls,
        Builder.spelled_mustache (Strip.plain_ofDelimiters _ _)⟩
  | _, _, .unescaped h, hls =>
      ⟨_, hasRow_delimited (.inr rfl) (inner_of_writesCall h) hls,
        Builder.spelled_mustache (Strip.plain_ofDelimiters _ _)⟩
  | _, _, .inclusion h, hls =>
      ⟨_, hasRow_tag (inner_of_writesCall h) hls,
        @Statement.Spelled.inclusion ⟨_, _, .ofDelimiters _ _, _⟩ (Strip.plain_ofDelimiters _ _)⟩
  | _, _, .rawBlock hcall hbody hblock, _ => by
      obtain ⟨row, hrow, hbody⟩ := spelled_of_writesContents hbody
      exact ⟨_, hasRow_rawBlock (inner_of_writesCall hcall) hrow,
        Builder.spelled_of_rawBlock hbody hblock⟩
  | _, _, .block hhead hbody hother htail hblock, hls => by
      obtain ⟨hopening, hrow⟩ := spelled_opening hhead hls.left
      obtain ⟨row, hrow', hbody⟩ := spelled_of_writesStatements hbody hls.right.left
      obtain ⟨row', hrow'', hspelled⟩ := spelled_of_writesSection hother hls.right.right.left
      obtain ⟨hclosing, hrow'''⟩ := spelled_closing htail hls.right.right.right
      rw [role_ite] at hrow
      exact ⟨_, hrow.append (hrow'.append (hrow''.append hrow''')),
        Builder.spelled_of_block hopening hbody hspelled hclosing (chained_of_writesSection hother)
          hblock⟩
  | _, _, .inclusionBlock hhead hbody htail hblock, hls => by
      obtain ⟨hopening, hrow⟩ := spelled_opening hhead hls.left
      obtain ⟨row, hrow', hbody⟩ := spelled_of_writesStatements hbody hls.right.left
      obtain ⟨hclosing, hrow''⟩ := spelled_closing htail hls.right.right
      exact ⟨_, hrow.append (hrow'.append hrow''),
        Builder.spelled_of_inclusionBlock hopening hbody hclosing hblock⟩

/-- The row of an else section spells it, whatever its first link remembers. -/
theorem spelled_of_writesSection : ∀ {chains : Bool} {ls : List Lexeme}
    {other : Option ElseSection}, g.WritesSection chains ls other → AllDelimited ls →
    ∃ row, HasRow ls row ∧ ElseSection.Spelled row other
  | _, _, _, .none, _ => ⟨[], .nil, rfl⟩
  | _, _, _, .plain h, hls => by
      obtain ⟨row, hrow, hbody⟩ := spelled_of_writesStatements h hls.tail
      exact ⟨_, (hasRow_elseTag hls.head).append hrow,
        Strip.plain_ofDelimiters _ _, row, rfl, .mk hbody⟩
  | _, _, _, .link hhead hbody hother hblock, hls => by
      obtain ⟨hopening, hrow⟩ := spelled_opening hhead hls.left
      obtain ⟨row, hrow', hbody⟩ := spelled_of_writesStatements hbody hls.right.left
      obtain ⟨row', hrow'', hspelled⟩ := spelled_of_writesSection hother hls.right.right
      exact ⟨_, hrow.cons (hrow'.append hrow''), hopening, fun closing q hclosing hq =>
        Builder.spelled_of_link hopening hbody hspelled hblock hclosing hq⟩

end

/-- The row of the tokens of an accepted template spells its tree. -/
theorem spelled_of_writesProgram {ls : List Lexeme} {p : Program} (h : g.WritesProgram ls p)
    (hls : AllDelimited ls) : Program.Spelled (rowOf ls) p := by
  cases h with
  | mk h =>
      obtain ⟨row, hrow, hbody⟩ := spelled_of_writesStatements h hls
      rw [hrow.rowOf_eq]
      exact .mk hbody

end Grammar

/-! ## Templates -/

/-- The row of a template under given options. -/
def Options.row (o : Options) (text : Text) : List Part :=
  rowOf (tokenize o.brackets.isList text).lexemes

/-- What is written by all tokens of a template is what is parsed. -/
theorem writesProgram_of_parseRaw {o : Options} {text : Text} {p : Program}
    (h : parseRaw o text = .ok p) :
    (o.grammar text).WritesProgram (tokenize o.brackets.isList text).lexemes p :=
  Grammar.writesProgram_of_program (Grammar.program_of_parse (parseRaw_eq_ok_iff.mp h).2)

/-- The row of an accepted template spells its tree. -/
theorem spelled_of_parseRaw {o : Options} {text : Text} {p : Program}
    (h : parseRaw o text = .ok p) : Program.Spelled (o.row text) p :=
  Grammar.spelled_of_writesProgram (writesProgram_of_parseRaw h) (delimited_tokenize _ _)

end Stache
