import Stache.Tree.Basic

/-!
# Trees as they are written

Before whitespace control, every text of a tree is what was written, and no tag
says yet where it may stand alone.  A program is a link of an else chain only as
the else section of a block that has a main section, and then it holds nothing
but a block with a main section.  `chains` says whether there are else chains at
all.
-/

namespace Stache

/-- Only the markers that were written. -/
def Strip.Plain (s : Strip) : Prop :=
  s.openStandalone = false ∧ s.closeStandalone = false ∧ s.inlineStandalone = false

theorem Strip.Plain.eq {s : Strip} (h : s.Plain) :
    s = { before := s.before, after := s.after } := by
  obtain ⟨before, after, openStandalone, closeStandalone, inlineStandalone⟩ := s
  obtain ⟨hopen, hclose, hinline⟩ := h
  subst hopen hclose hinline
  rfl

/-- A text that nothing has trimmed. -/
def Content.Fresh (c : Content) : Prop :=
  c.value = c.written ∧ c.leftStripped = false ∧ c.rightStripped = false

section

variable (chains : Bool)

mutual

/-- A program as it is written, which is no link of an else chain. -/
inductive Program.Raw : Program → Prop where
  | mk {body : List Statement} {blockParams : Option (List Text)} {loc : Option Location}
      (hb : Body.Raw body) : Program.Raw ⟨body, blockParams, false, loc⟩

/-- Statements as they are written. -/
inductive Body.Raw : List Statement → Prop where
  | nil : Body.Raw []
  | cons {s : Statement} {rest : List Statement} (hs : Statement.Raw s) (hr : Body.Raw rest) :
      Body.Raw (s :: rest)

/-- A statement as it is written. -/
inductive Statement.Raw : Statement → Prop where
  | content {c : Content} (h : c.Fresh) : Statement.Raw (.content c)
  | mustache {node : Mustache} (h : node.strip.Plain) : Statement.Raw (.mustache node)
  | decorator {node : Mustache} (h : node.strip.Plain) : Statement.Raw (.decorator node)
  | inclusion {node : Inclusion} (h : node.strip.Plain) : Statement.Raw (.inclusion node)
  | comment {node : Comment} (h : node.strip.Plain) : Statement.Raw (.comment node)
  | block {call : Call} {main inverse : Option Program} {opening middle closing : Strip}
      {loc : Location} (hstrip : opening.Plain ∧ middle.Plain ∧ closing.Plain)
      (hmain : Section.Raw main) (hinverse : Section.RawInverse main.isSome inverse) :
      Statement.Raw (.block ⟨call, main, inverse, opening, middle, closing, loc⟩)
  | decoratorBlock {call : Call} {main inverse : Option Program}
      {opening middle closing : Strip} {loc : Location}
      (hstrip : opening.Plain ∧ middle.Plain ∧ closing.Plain)
      (hmain : Section.Raw main) (hinverse : Section.RawInverse main.isSome inverse) :
      Statement.Raw (.decoratorBlock ⟨call, main, inverse, opening, middle, closing, loc⟩)
  | inclusionBlock {call : Call} {main : Program} {opening closing : Strip} {loc : Location}
      (hstrip : opening.Plain ∧ closing.Plain) (hmain : Program.Raw main) :
      Statement.Raw (.inclusionBlock ⟨call, main, opening, closing, loc⟩)

/-- A main section as it is written. -/
inductive Section.Raw : Option Program → Prop where
  | none : Section.Raw none
  | some {p : Program} (h : Program.Raw p) : Section.Raw (some p)

/-- An else section as it is written, in a block that has a main section or
not. -/
inductive Section.RawInverse : Bool → Option Program → Prop where
  | none {main : Bool} : Section.RawInverse main none
  | plain {main : Bool} {body : List Statement} {blockParams : Option (List Text)}
      {loc : Option Location} (hb : Body.Raw body) :
      Section.RawInverse main (some ⟨body, blockParams, false, loc⟩)
  | link {call : Call} {p : Program} {inverse : Option Program}
      {opening middle closing : Strip} {loc : Location} {blockParams : Option (List Text)}
      {loc' : Option Location} (hchains : chains = true)
      (hstrip : opening.Plain ∧ middle.Plain ∧ closing.Plain) (hp : Program.Raw p)
      (hinverse : Section.RawInverse true inverse) :
      Section.RawInverse true
        (some ⟨[.block ⟨call, some p, inverse, opening, middle, closing, loc⟩], blockParams, true,
          loc'⟩)

end

end

theorem Program.Raw.chained_eq {chains : Bool} {p : Program} (h : Program.Raw chains p) :
    p.chained = false := by
  cases h with
  | mk _ => rfl

end Stache
