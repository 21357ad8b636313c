import Stache.Proofs.Layout.Cuts
import Stache.Proofs.Tree.Outline

/-!
# Whitespace control looks at outlines

What is left of the texts of a template depends on its outline only: templates
with the same outline have the same pieces up to the places of texts, and these
say how each text is cut (`remains_of_outline_eq`).
-/

namespace Stache
namespace Layout

variable {i chains : Bool}

/-! ## Lines and reports -/

/-- Whether a line ends in front of a statement is seen in the outline. -/
theorem lineEnds_outline (root : Bool) (before : List Statement) :
    lineEnds root (before.map Statement.outline) = lineEnds root before := by
  cases before with
  | nil => rfl
  | cons s before =>
      cases s with
      | content c => cases before <;> rfl
      | block node | decoratorBlock node | inclusionBlock node => cases node; rfl
      | mustache _ | decorator _ | inclusion _ | comment _ => rfl

/-- Whether a line starts behind a statement is seen in the outline. -/
theorem lineStarts_outline (root : Bool) (after : List Statement) :
    lineStarts root (after.map Statement.outline) = lineStarts root after := by
  cases after with
  | nil => rfl
  | cons s after =>
      cases s with
      | content c => cases after <;> rfl
      | block node | decoratorBlock node | inclusionBlock node => cases node; rfl
      | mustache _ | decorator _ | inclusion _ | comment _ => rfl

theorem lineEnds_reverse_outline (p : Program) :
    lineEnds false p.outline.body.reverse = lineEnds false p.body.reverse := by
  rw [Program.body_outline, ← List.map_reverse, lineEnds_outline]

/-- The first section of a chain is seen in the outline. -/
theorem firstSection?_outline {main : Bool} {q : Program}
    (h : Section.RawInverse chains main (some q)) :
    firstSection? q.outline = (firstSection? q).map (List.map Statement.outline) := by
  cases h with
  | plain _ => exact congrArg some (Body.outline_eq_map _)
  | @link _ p => exact congrArg some (Program.body_outline p)

/-- Whether an else tag stands alone is seen in the outline. -/
theorem elseAlone_outline (p : Program) {main : Bool} {q : Program}
    (h : Section.RawInverse chains main (some q)) :
    elseAlone p.outline q.outline = elseAlone p q := by
  rw [elseAlone, lineEnds_reverse_outline, firstSection?_outline h, elseAlone]
  cases firstSection? q with
  | none => rfl
  | some body => exact congrArg _ (lineStarts_outline false body)

/-- What a block reports is seen in the outline. -/
theorem report_outline (opening closing : Strip) (p : Program) {main : Bool}
    {inverse : Option Program} (h : Section.RawInverse chains main inverse) :
    report opening closing p.outline (Section.outline inverse) = report opening closing p inverse := by
  have hlast : lineEnds false (((Section.outline inverse).bind firstSection?).getD
      p.outline.body).reverse = lineEnds false ((inverse.bind firstSection?).getD p.body).reverse := by
    cases inverse with
    | none => exact lineEnds_reverse_outline p
    | some q =>
        show lineEnds false ((firstSection? q.outline).getD _).reverse = _
        rw [firstSection?_outline h, Option.bind_some]
        cases firstSection? q with
        | none => exact lineEnds_reverse_outline p
        | some body =>
            rw [Option.map_some, Option.getD_some, Option.getD_some, ← List.map_reverse,
              lineEnds_outline]
  rw [report, hlast, Program.body_outline, lineStarts_outline]
  rfl

theorem rawInverse_none (chains : Bool) : Section.RawInverse chains true none := .none

/-- What a statement reports is seen in the outline. -/
theorem reportOf_outline {s : Statement} (h : Statement.Raw chains s) :
    reportOf s.outline = reportOf s := by
  cases h with
  | content _ | mustache _ | decorator _ | inclusion _ | comment _ => rfl
  | @block _ main inverse _ _ _ _ _ _ hinverse
  | @decoratorBlock _ main inverse _ _ _ _ _ _ hinverse =>
      cases main with
      | some p => exact congrArg some (report_outline _ _ p hinverse)
      | none =>
          cases inverse with
          | some q => exact congrArg some (report_outline _ _ q (rawInverse_none chains))
          | none => rfl
  | @inclusionBlock _ main =>
      exact congrArg some (report_outline _ _ main (rawInverse_none chains))

/-! ## Pieces -/

/-- A piece without the place of its text. -/
def Piece.outline : Piece → Piece
  | .text c => .text (Outline.text c.written)
  | .tag before after => .tag before after

/-- The verdict on a statement is seen in the outline. -/
theorem judge_outline (root : Bool) {s : Statement} (h : Statement.Raw chains s)
    (before after : List Statement) :
    judge i root ((settle i s.outline).2.getD {}) (before.map Statement.outline)
        (after.map Statement.outline) =
      judge i root ((settle i s).2.getD {}) before after := by
  simp only [judge, settle_report, reportOf_outline h, lineEnds_outline, lineStarts_outline]

mutual

/-- **The pieces of the outline are the outlines of the pieces.** -/
theorem ofProgram_outline : ∀ {p : Program}, Program.Raw chains p → ∀ root : Bool,
    (Piece.ofProgram i root p.outline).flatten =
      (Piece.ofProgram i root p).flatten.map Piece.outline
  | _, .mk hb, root => ofBody_outline hb root []

/-- The pieces of statements are seen in their outlines. -/
theorem ofBody_outline : ∀ {body : List Statement}, Body.Raw chains body →
    ∀ (root : Bool) (before : List Statement),
      (Piece.ofBody i root (before.map Statement.outline) (Body.outline body)).flatten =
        (Piece.ofBody i root before body).flatten.map Piece.outline
  | _, .nil, _, _ => rfl
  | s :: rest, .cons hs hr, root, before => by
      have hrest := ofBody_outline hr root (s :: before)
      rw [Body.outline, Piece.ofBody, Piece.ofBody, List.flatten_cons, List.flatten_cons,
        List.map_append, ← hrest, Body.outline_eq_map, judge_outline root hs,
        ofStatement_outline hs]
      rfl

/-- The pieces of a statement are seen in its outline. -/
theorem ofStatement_outline : ∀ {s : Statement}, Statement.Raw chains s → ∀ v : Verdict,
    Piece.ofStatement i v s.outline = (Piece.ofStatement i v s).map Piece.outline
  | _, .content _, _ => rfl
  | _, .mustache _, _ | _, .decorator _, _ | _, .inclusion _, _ | _, .comment _, _ => rfl
  | _, .block _ hmain hinverse, _ | _, .decoratorBlock _ hmain hinverse, _ => by
      rw [Piece.ofStatement, List.map_cons, List.map_append, ← ofSection_outline hmain,
        ← ofInverse_outline hinverse rfl]
      rfl
  | _, .inclusionBlock _ hmain, _ => by
      rw [Piece.ofStatement, List.map_cons, List.map_append, ← ofProgram_outline hmain,
        ← Bool.or_false (Strip.before _)]
      rfl

theorem ofSection_outline : ∀ {main : Option Program}, Section.Raw chains main →
    Piece.ofSection i (Section.outline main) = (Piece.ofSection i main).map Piece.outline
  | _, .none => rfl
  | _, .some hp => ofProgram_outline hp false

/-- The pieces of an else section are seen in its outline. Those of the else tag hang on
the bodies of both sections. -/
theorem ofInverse_outline : ∀ {m : Bool} {inverse : Option Program},
    Section.RawInverse chains m inverse →
    ∀ {middle closing : Strip} {marked alone : Bool} {after : Cut} {main : Option Program},
      main.isSome = m →
      Piece.ofInverse i middle closing marked alone after (Section.outline main)
          (Section.outline inverse) =
        (Piece.ofInverse i middle closing marked alone after main inverse).map Piece.outline
  | _, _, .none, _, _, _, _, _, _, _ => rfl
  | _, _, .plain hb, _, _, _, _, _, none, _ => by
      rw [Piece.ofInverse, List.map_append, ← ofBody_outline hb false []]
      rfl
  | _, some ⟨body, blockParams, _, loc⟩, .plain hb, middle, closing, marked, alone, after, some p,
      _ => by
      let q : Program := ⟨body, blockParams, false, loc⟩
      have hq : Section.RawInverse chains true (some q) := .plain hb
      have halone : elseAlone p.outline q.outline = elseAlone p q := elseAlone_outline p hq
      show .tag (.of (middle.before || marked) (!i && elseAlone p.outline q.outline))
            (.of middle.after (!i && elseAlone p.outline q.outline)) ::
          ((Piece.ofBody i false [] (Body.outline body)).flatten ++ [_]) =
        List.map Piece.outline (_ :: ((Piece.ofBody i false [] body).flatten ++ [_]))
      rw [halone, List.map_cons, List.map_append, ← ofBody_outline hb false []]
      rfl
  | _, some ⟨[.block ⟨call, some p', inverse, opening, middle', closing', loc⟩], params, _, loc'⟩,
      .link hchains hstrip hp hinverse, middle, closing, marked, alone, after, some p, _ => by
      let q : Program :=
        ⟨[.block ⟨call, some p', inverse, opening, middle', closing', loc⟩], params, true, loc'⟩
      have halone : elseAlone p.outline q.outline = elseAlone p q :=
        elseAlone_outline p (.link hchains hstrip hp hinverse)
      show .tag (.of (middle.before || marked) (!i && elseAlone p.outline q.outline))
            (.of (opening.after || middle.after) (!i && elseAlone p.outline q.outline)) ::
          ((Piece.ofProgram i false p'.outline).flatten ++
            Piece.ofInverse i middle' closing' closing.before false after
              (Section.outline (some p')) (Section.outline inverse)) =
        List.map Piece.outline (_ :: ((Piece.ofProgram i false p').flatten ++ _))
      rw [halone, List.map_cons, List.map_append, ofProgram_outline hp, ofInverse_outline hinverse rfl]
      rfl

end

/-! ## What is left of the texts -/

/-- How a text is cut at its end is seen in the outlines of the pieces. -/
theorem headCut_outline (e : Cut) (ds : List Piece) :
    headCut e (ds.map Piece.outline) = headCut e ds := by
  cases ds with
  | nil => rfl
  | cons d ds => cases d <;> rfl

/-- A text as it is written, and what is left of it. -/
def remains (c : Content) : Text × Text := (c.written, c.value)

/-- Copies of a text that are cut alike leave the same. -/
theorem remains_of_cutTo {s e : Cut} {c c' d d' : Content} (h : c.CutTo s e d)
    (h' : c'.CutTo s e d') (hc : c.written = c'.written) : remains d = remains d' := by
  rw [remains, remains, h.written, h.value, h'.written, h'.value, hc]

/-- Pieces with the same outlines leave the same of all texts. -/
theorem remains_of_cutBy {s e : Cut} {ds ds' : List Piece} {cs cs' : List Content}
    (h : CutBy s ds e cs) (h' : CutBy s ds' e cs')
    (heq : ds.map Piece.outline = ds'.map Piece.outline) :
    cs.map remains = cs'.map remains := by
  induction h generalizing ds' cs' with
  | nil =>
      obtain rfl : ds' = [] := List.map_eq_nil_iff.mp heq.symm
      cases h' with
      | nil => rfl
  | @text s e c d ds cs hcut _ ih =>
      cases h' with
      | nil => cases heq
      | tag _ => cases heq
      | @text _ _ c' d' ds' cs' hcut' hrest =>
          obtain ⟨hpiece, hds⟩ := List.cons.inj heq
          have htext : Outline.text c.written = Outline.text c'.written := Piece.text.inj hpiece
          have hwritten : (Outline.text c.written).written = (Outline.text c'.written).written := by
            rw [htext]
          rw [← headCut_outline, hds, headCut_outline] at hcut
          exact List.cons_eq_cons.mpr ⟨remains_of_cutTo hcut hcut' hwritten, ih hrest hds⟩
  | @tag s e before after ds cs _ ih =>
      cases h' with
      | nil => cases heq
      | text _ _ => cases heq
      | tag hrest =>
          obtain ⟨hpiece, hds⟩ := List.cons.inj heq
          obtain ⟨-, rfl⟩ := Piece.tag.inj hpiece
          exact ih hrest hds

/-- The same is left of the texts of templates with the same outline. -/
theorem remains_of_outline_eq {p p' : Program} (hp : Program.Raw chains p)
    (hp' : Program.Raw chains p') (h : p.outline = p'.outline) (root : Bool) :
    (program i root p).contents.map remains = (program i root p').contents.map remains := by
  have hcut := (cutBody_program (i := i) hp root).cutBy_program
  have hcut' := (cutBody_program (i := i) hp' root).cutBy_program
  refine remains_of_cutBy hcut hcut' ?_
  rw [← ofProgram_outline hp, ← ofProgram_outline hp', h]

end Layout
end Stache
