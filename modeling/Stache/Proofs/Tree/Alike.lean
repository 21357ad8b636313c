import Mathlib.Data.List.Forall2
import Stache.Tree.Basic

/-!
# Trees that differ in their texts

Two trees are alike when one comes from the other by changes of its texts and
of the indents of its partials.  All else is the same: the statements and their
order, calls, markers, names and places.  A relation says which changes of a
text are allowed.
-/

namespace Stache

section

variable (R : Content → Content → Prop)

mutual

/-- Statements that differ in their texts and in the indents of partials. -/
inductive Statement.Alike : Statement → Statement → Prop where
  | mustache (node : Mustache) : Statement.Alike (.mustache node) (.mustache node)
  | decorator (node : Mustache) : Statement.Alike (.decorator node) (.decorator node)
  | comment (node : Comment) : Statement.Alike (.comment node) (.comment node)
  | content {c d : Content} (h : R c d) : Statement.Alike (.content c) (.content d)
  | inclusion (node : Inclusion) (indent : Text) :
      Statement.Alike (.inclusion node) (.inclusion { node with indent := indent })
  | block (node : Block) {program inverse : Option Program}
      (hp : Section.Alike node.program program) (hi : Section.Alike node.inverse inverse) :
      Statement.Alike (.block node)
        (.block { node with program := program, inverse := inverse })
  | decoratorBlock (node : Block) {program inverse : Option Program}
      (hp : Section.Alike node.program program) (hi : Section.Alike node.inverse inverse) :
      Statement.Alike (.decoratorBlock node)
        (.decoratorBlock { node with program := program, inverse := inverse })
  | inclusionBlock (node : InclusionBlock) {program : Program}
      (hp : Program.Alike node.program program) :
      Statement.Alike (.inclusionBlock node) (.inclusionBlock { node with program := program })

/-- Lists of alike statements. -/
inductive Body.Alike : List Statement → List Statement → Prop where
  | nil : Body.Alike [] []
  | cons {s t : Statement} {body body' : List Statement} (hs : Statement.Alike s t)
      (hb : Body.Alike body body') : Body.Alike (s :: body) (t :: body')

/-- Sections of a block that are alike, or both missing. -/
inductive Section.Alike : Option Program → Option Program → Prop where
  | none : Section.Alike none none
  | some {p q : Program} (h : Program.Alike p q) : Section.Alike (some p) (some q)

/-- Programs of alike statements. -/
inductive Program.Alike : Program → Program → Prop where
  | mk (p : Program) {body : List Statement} (h : Body.Alike p.body body) :
      Program.Alike p { p with body := body }

end

end

/-! ## Order -/

section

variable {R : Content → Content → Prop}

mutual

/-- A statement is alike to itself if its texts are. -/
theorem Statement.Alike.refl (hrefl : ∀ c, R c c) : ∀ s : Statement, Statement.Alike R s s
  | .mustache node => .mustache node
  | .decorator node => .decorator node
  | .comment node => .comment node
  | .content c => .content (hrefl c)
  | .inclusion node => .inclusion node node.indent
  | .block ⟨call, program, inverse, opening, middle, closing, loc⟩ =>
      .block ⟨call, program, inverse, opening, middle, closing, loc⟩
        (Section.Alike.refl hrefl program) (Section.Alike.refl hrefl inverse)
  | .decoratorBlock ⟨call, program, inverse, opening, middle, closing, loc⟩ =>
      .decoratorBlock ⟨call, program, inverse, opening, middle, closing, loc⟩
        (Section.Alike.refl hrefl program) (Section.Alike.refl hrefl inverse)
  | .inclusionBlock ⟨call, program, opening, closing, loc⟩ =>
      .inclusionBlock ⟨call, program, opening, closing, loc⟩ (Program.Alike.refl hrefl program)

theorem Body.Alike.refl (hrefl : ∀ c, R c c) : ∀ body : List Statement, Body.Alike R body body
  | [] => .nil
  | s :: body => .cons (Statement.Alike.refl hrefl s) (Body.Alike.refl hrefl body)

theorem Section.Alike.refl (hrefl : ∀ c, R c c) : ∀ p : Option Program, Section.Alike R p p
  | none => .none
  | some p => .some (Program.Alike.refl hrefl p)

/-- A tree is alike to itself if its texts are. -/
theorem Program.Alike.refl (hrefl : ∀ c, R c c) : ∀ p : Program, Program.Alike R p p
  | ⟨body, blockParams, chained, loc⟩ =>
      .mk ⟨body, blockParams, chained, loc⟩ (Body.Alike.refl hrefl body)

end

end

section

variable {R S T : Content → Content → Prop}

mutual

/-- Statements are alike over a third one if the texts are. -/
theorem Statement.Alike.trans (htrans : ∀ c d e, R c d → S d e → T c e) :
    ∀ {s t u : Statement},
      Statement.Alike R s t → Statement.Alike S t u → Statement.Alike T s u
  | _, _, _, .mustache node, .mustache _ => .mustache node
  | _, _, _, .decorator node, .decorator _ => .decorator node
  | _, _, _, .comment node, .comment _ => .comment node
  | _, _, _, .content h, .content h' => .content (htrans _ _ _ h h')
  | _, _, _, .inclusion node _, .inclusion _ indent => .inclusion node indent
  | _, _, _, .block node hp hi, .block _ hp' hi' =>
      .block node (Section.Alike.trans htrans hp hp') (Section.Alike.trans htrans hi hi')
  | _, _, _, .decoratorBlock node hp hi, .decoratorBlock _ hp' hi' =>
      .decoratorBlock node (Section.Alike.trans htrans hp hp') (Section.Alike.trans htrans hi hi')
  | _, _, _, .inclusionBlock node hp, .inclusionBlock _ hp' =>
      .inclusionBlock node (Program.Alike.trans htrans hp hp')

theorem Body.Alike.trans (htrans : ∀ c d e, R c d → S d e → T c e) :
    ∀ {body body' body'' : List Statement},
      Body.Alike R body body' → Body.Alike S body' body'' → Body.Alike T body body''
  | _, _, _, .nil, .nil => .nil
  | _, _, _, .cons hs hb, .cons hs' hb' =>
      .cons (Statement.Alike.trans htrans hs hs') (Body.Alike.trans htrans hb hb')

theorem Section.Alike.trans (htrans : ∀ c d e, R c d → S d e → T c e) :
    ∀ {p q r : Option Program},
      Section.Alike R p q → Section.Alike S q r → Section.Alike T p r
  | _, _, _, .none, .none => .none
  | _, _, _, .some h, .some h' => .some (Program.Alike.trans htrans h h')

/-- Trees are alike over a third one if the texts are. -/
theorem Program.Alike.trans (htrans : ∀ c d e, R c d → S d e → T c e) :
    ∀ {p q r : Program},
      Program.Alike R p q → Program.Alike S q r → Program.Alike T p r
  | _, _, _, .mk p h, .mk _ h' => .mk p (Body.Alike.trans htrans h h')

end

end

/-- A weaker relation on texts makes more trees alike. -/
theorem Program.Alike.mono {R S : Content → Content → Prop} (h : ∀ c d, R c d → S c d)
    {p q : Program} (hpq : Program.Alike R p q) : Program.Alike S p q :=
  Program.Alike.trans (fun c d _ hr he => he ▸ h c d hr) hpq
    (Program.Alike.refl (fun _ => Eq.refl _) q)

/-- Lists of statements are alike when their members are, one by one. -/
theorem Body.alike_iff {R : Content → Content → Prop} {body body' : List Statement} :
    Body.Alike R body body' ↔ List.Forall₂ (Statement.Alike R) body body' := by
  constructor
  · intro h
    induction body generalizing body' with
    | nil =>
        cases h with
        | nil => exact .nil
    | cons s rest ih =>
        cases h with
        | cons hs hb => exact .cons hs (ih hb)
  · intro h
    induction h with
    | nil => exact .nil
    | cons hs _ ih => exact .cons hs ih

/-- Lists that are alike are so from the other end. -/
theorem Body.Alike.reverse {R : Content → Content → Prop} {body body' : List Statement}
    (h : Body.Alike R body body') : Body.Alike R body.reverse body'.reverse :=
  Body.alike_iff.mpr (List.rel_reverse (Body.alike_iff.mp h))

end Stache
