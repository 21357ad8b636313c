import Stache.Proofs.Token.Row
import Stache.Proofs.Tree.Raw

/-!
# Rows that spell trees

`Program.Spelled row p` says that the row of texts and tags is that of the tree
`p` as it is written.  The row holds everything that the tree remembers of the
markers in it.

A block remembers the markers of its opening tag, of the tag that ends its main
section, and of its closing tag.  The links of an else chain have no closing tag
of their own.  What such a link remembers in its place are the markers of the
closing tag of the whole chain if it is the first link, and those of its own
opening tag if it is another.
-/

namespace Stache

mutual

/-- A row spells a program that is no link of an else chain. -/
inductive Program.Spelled : List Part → Program → Prop where
  | mk {row : List Part} {body : List Statement} {blockParams : Option (List Text)}
      {loc : Option Location} (hb : Body.Spelled row body) :
      Program.Spelled row ⟨body, blockParams, false, loc⟩

/-- A row spells some statements. -/
inductive Body.Spelled : List Part → List Statement → Prop where
  | nil : Body.Spelled [] []
  | cons {row row' : List Part} {s : Statement} {rest : List Statement}
      (hs : Statement.Spelled row s) (hr : Body.Spelled row' rest) :
      Body.Spelled (row ++ row') (s :: rest)

/-- A row spells a statement. -/
inductive Statement.Spelled : List Part → Statement → Prop where
  | content {c : Content} (h : c.Fresh) : Statement.Spelled [.text c.written] (.content c)
  | mustache {node : Mustache} (h : node.strip.Plain) :
      Statement.Spelled [node.strip.part .leaf] (.mustache node)
  | decorator {node : Mustache} (h : node.strip.Plain) :
      Statement.Spelled [node.strip.part .leaf] (.decorator node)
  | inclusion {node : Inclusion} (h : node.strip.Plain) :
      Statement.Spelled [node.strip.part .leaf] (.inclusion node)
  | comment {node : Comment} (h : node.strip.Plain) :
      Statement.Spelled [node.strip.part .leaf] (.comment node)
  | block {row : List Part} {node : Block} (h : Block.Spelled row node) :
      Statement.Spelled row (.block node)
  | decoratorBlock {row : List Part} {node : Block} (h : Block.Spelled row node) :
      Statement.Spelled row (.decoratorBlock node)
  | inclusionBlock {row : List Part} {call : Call} {main : Program} {opening closing : Strip}
      {loc : Location} (hstrip : opening.Plain ∧ closing.Plain) (hmain : Program.Spelled row main) :
      Statement.Spelled
        (opening.part (.opening false) :: (row ++ [closing.part .closing]))
        (.inclusionBlock ⟨call, main, opening, closing, loc⟩)

/-- A row spells a block.  In an inverted block the tree has the sections the
other way round. -/
inductive Block.Spelled : List Part → Block → Prop where
  | main {row row' : List Part} {call : Call} {p : Program} {inverse : Option Program}
      {opening middle closing : Strip} {loc : Location}
      (hstrip : opening.Plain ∧ middle.Plain ∧ closing.Plain) (hp : Program.Spelled row p)
      (hi : Section.Spelled middle closing row' inverse) :
      Block.Spelled
        (opening.part (.opening false) :: (row ++ (row' ++ [closing.part .closing])))
        ⟨call, some p, inverse, opening, middle, closing, loc⟩
  | inverted {row : List Part} {call : Call} {p : Program} {opening middle closing : Strip}
      {loc : Location} (hstrip : opening.Plain ∧ middle.Plain ∧ closing.Plain)
      (hp : Program.Spelled row p) :
      Block.Spelled (opening.part (.opening true) :: (row ++ [closing.part .closing]))
        ⟨call, none, some p, opening, middle, closing, loc⟩
  | invertedElse {row row' : List Part} {call : Call} {p q : Program}
      {opening middle closing : Strip} {loc : Location}
      (hstrip : opening.Plain ∧ middle.Plain ∧ closing.Plain) (hp : Program.Spelled row p)
      (hq : Program.Spelled row' q) :
      Block.Spelled
        (opening.part (.opening true) ::
          (row ++ (middle.part .middle :: row' ++ [closing.part .closing])))
        ⟨call, some q, some p, opening, middle, closing, loc⟩

/-- A row spells an else section, together with the tag in front of it.
`middle` are the markers of that tag, and `closing` those that a link remembers
in place of a closing tag. -/
inductive Section.Spelled : Strip → Strip → List Part → Option Program → Prop where
  | none {middle closing : Strip} : Section.Spelled middle closing [] none
  | plain {middle closing : Strip} {row : List Part} {p : Program} (hp : Program.Spelled row p) :
      Section.Spelled middle closing (middle.part .middle :: row) (some p)
  | link {middle middle' closing : Strip} {row row' : List Part} {call : Call} {p : Program}
      {inverse : Option Program} {loc : Location} {blockParams : Option (List Text)}
      {loc' : Option Location} (hstrip : middle.Plain ∧ middle'.Plain ∧ closing.Plain)
      (hp : Program.Spelled row p) (hi : Section.Spelled middle' middle' row' inverse) :
      Section.Spelled middle closing (middle.part .link :: (row ++ row'))
        (some ⟨[.block ⟨call, some p, inverse, middle, middle', closing, loc⟩], blockParams, true,
          loc'⟩)

end

/-! ## Spelled trees are raw -/

mutual

/-- A program that a row spells is raw. -/
theorem Program.Spelled.raw : ∀ {row : List Part} {p : Program}, Program.Spelled row p →
    Program.Raw true p
  | _, _, .mk hb => .mk hb.raw

/-- Statements that a row spells are raw. -/
theorem Body.Spelled.raw : ∀ {row : List Part} {body : List Statement}, Body.Spelled row body →
    Body.Raw true body
  | _, _, .nil => .nil
  | _, _, .cons hs hr => .cons hs.raw hr.raw

theorem Statement.Spelled.raw : ∀ {row : List Part} {s : Statement}, Statement.Spelled row s →
    Statement.Raw true s
  | _, _, .content h => .content h
  | _, _, .mustache h => .mustache h
  | _, _, .decorator h => .decorator h
  | _, _, .inclusion h => .inclusion h
  | _, _, .comment h => .comment h
  | _, _, .block h => h.raw.1
  | _, _, .decoratorBlock h => h.raw.2
  | _, _, .inclusionBlock hstrip hp => .inclusionBlock hstrip hp.raw

/-- A block that a row spells is raw, with a star in its opener or without. -/
theorem Block.Spelled.raw : ∀ {row : List Part} {node : Block}, Block.Spelled row node →
    Statement.Raw true (.block node) ∧ Statement.Raw true (.decoratorBlock node)
  | _, _, .main hstrip hp hi =>
      ⟨.block hstrip (.some hp.raw) hi.raw, .decoratorBlock hstrip (.some hp.raw) hi.raw⟩
  | _, _, .inverted hstrip hp =>
      ⟨.block hstrip .none hp.rawInverse, .decoratorBlock hstrip .none hp.rawInverse⟩
  | _, _, .invertedElse hstrip hp hq =>
      ⟨.block hstrip (.some hq.raw) hp.rawInverse,
        .decoratorBlock hstrip (.some hq.raw) hp.rawInverse⟩

/-- A program that a row spells is raw as an else section too. -/
theorem Program.Spelled.rawInverse : ∀ {row : List Part} {p : Program}, Program.Spelled row p →
    ∀ {main : Bool}, Section.RawInverse true main (some p)
  | _, _, .mk hb, _ => .plain hb.raw

/-- An else section that a row spells is raw. -/
theorem Section.Spelled.raw : ∀ {middle closing : Strip} {row : List Part}
    {inverse : Option Program}, Section.Spelled middle closing row inverse →
    Section.RawInverse true true inverse
  | _, _, _, _, .none => .none
  | _, _, _, _, .plain hp => hp.rawInverse
  | _, _, _, _, .link hstrip hp hi => .link rfl hstrip hp.raw hi.raw

end

/-! ## Rows of trees are balanced -/

mutual

/-- The tags in the row of a program match. -/
theorem Program.Spelled.balanced : ∀ {row : List Part} {p : Program}, Program.Spelled row p →
    ∀ inner : Bool, Balanced inner row
  | _, _, .mk hb, inner => hb.balanced inner

/-- The tags in the row of some statements match. -/
theorem Body.Spelled.balanced : ∀ {row : List Part} {body : List Statement},
    Body.Spelled row body → ∀ inner : Bool, Balanced inner row
  | _, _, .nil, _ => .nil
  | _, _, .cons hs hr, inner => (hs.balanced inner).append (hr.balanced inner)

theorem Statement.Spelled.balanced : ∀ {row : List Part} {s : Statement},
    Statement.Spelled row s → ∀ inner : Bool, Balanced inner row
  | _, _, .content _, _ => .text .nil
  | _, _, .mustache _, _ | _, _, .decorator _, _ | _, _, .inclusion _, _ | _, _, .comment _, _ =>
      .leaf .nil
  | _, _, .block h, inner | _, _, .decoratorBlock h, inner => h.balanced inner
  | _, _, .inclusionBlock _ hp, _ => .block (hp.balanced true) .nil

/-- The tags inside a block match. -/
theorem Block.Spelled.balanced : ∀ {row : List Part} {node : Block}, Block.Spelled row node →
    ∀ inner : Bool, Balanced inner row
  | _, _, .main _ hp hi, _ => by
      rw [← List.append_assoc]
      exact .block ((hp.balanced true).append hi.balanced) .nil
  | _, _, .inverted _ hp, _ => .block (hp.balanced true) .nil
  | _, _, .invertedElse _ hp hq, _ => by
      rw [← List.append_assoc]
      exact .block ((hp.balanced true).append (.middle (hq.balanced true))) .nil

/-- The tags in the row of an else section match, each else tag with one of the same
block. -/
theorem Section.Spelled.balanced : ∀ {middle closing : Strip} {row : List Part}
    {inverse : Option Program}, Section.Spelled middle closing row inverse → Balanced true row
  | _, _, _, _, .none => .nil
  | _, _, _, _, .plain hp => .middle (hp.balanced true)
  | _, _, _, _, .link _ hp hi => .link ((hp.balanced true).append hi.balanced)

end

end Stache
