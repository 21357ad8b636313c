import Stache.Proofs.Layout.Cut
import Stache.Proofs.Layout.Frame
import Stache.Proofs.Tree.Contents

/-!
# A template as a row of pieces

Read from its start to its end, a template is a row of texts and tags.  A block
contributes its opening tag, its main section, an else tag if it has both
sections, its else section and its closing tag.  In an else chain the opening
tag of each link is the else tag of the block around it, and one closing tag
ends all of them.

Here each tag of the row stands with the two cuts that whitespace control makes
on its sides.  They are read off the tree as it was written, from the outside
in.
-/

namespace Stache
namespace Layout

/-- A piece of a template. -/
inductive Piece where
  | text (c : Content)
  /-- A tag, with the cuts at the end of a text before it and at the start of a
  text behind it. -/
  | tag (before after : Cut)
deriving DecidableEq, Repr

/-- The cut before a tag with a verdict. -/
def Verdict.before (v : Verdict) : Cut := .of v.allBefore v.lineBefore

/-- The cut behind a tag with a verdict. -/
def Verdict.after (v : Verdict) : Cut := .of v.allAfter v.lineAfter

namespace Piece

variable (i : Bool)

mutual

/-- The pieces of a program. -/
def ofProgram (root : Bool) : Program → List (List Piece)
  | ⟨body, _, _, _⟩ => ofBody root [] body

/-- The pieces of a list of statements that follows `before`, statement by
statement. -/
def ofBody (root : Bool) (before : List Statement) : List Statement → List (List Piece)
  | [] => []
  | s :: rest =>
      ofStatement (judge i root ((settle i s).2.getD {}) before rest) s ::
        ofBody root (s :: before) rest

/-- The pieces of a statement, with the verdict on it. -/
def ofStatement (v : Verdict) : Statement → List Piece
  | .content c => [.text c]
  | .mustache _ | .decorator _ | .inclusion _ | .comment _ => [.tag v.before v.after]
  | .block ⟨_, main, inverse, opening, middle, closing, _⟩ =>
      .tag v.before (.of opening.after v.openAlone) ::
        (ofSection main ++ ofInverse middle closing false v.closeAlone v.after main inverse)
  | .decoratorBlock ⟨_, main, inverse, opening, middle, closing, _⟩ =>
      .tag v.before (.of opening.after v.openAlone) ::
        (ofSection main ++ ofInverse middle closing false v.closeAlone v.after main inverse)
  | .inclusionBlock ⟨_, main, opening, closing, _⟩ =>
      .tag v.before (.of opening.after v.openAlone) ::
        ((ofProgram false main).flatten ++ [.tag (.of closing.before v.closeAlone) v.after])

/-- The pieces of a section, if it is there. -/
def ofSection : Option Program → List Piece
  | none => []
  | some p => (ofProgram false p).flatten

/-- The pieces of a block behind its main section.  `marked` says that the white
space at the end of that section goes in any case, `alone` that the closing tag
stands alone, and `after` is the cut behind it. -/
def ofInverse (middle closing : Strip) (marked alone : Bool) (after : Cut)
    (main : Option Program) : Option Program → List Piece
  | none => [.tag (.of (closing.before || marked) alone) after]
  | some ⟨body, blockParams, chained, loc⟩ =>
      match main with
      | none => (ofBody false [] body).flatten ++ [.tag (.of closing.before alone) after]
      | some p =>
          let lone := !i && elseAlone p ⟨body, blockParams, chained, loc⟩
          let before := Cut.of (middle.before || marked) lone
          if chained then ofLink before middle.after lone closing.before after body
          else
            .tag before (.of middle.after lone) ::
              ((ofBody false [] body).flatten ++ [.tag (.of closing.before alone) after])

/-- The pieces of a link of an else chain.  `before` is the cut before its
opening tag, `marked` and `lone` say how this tag cuts behind itself besides,
`last` says that the white space at the end of its main section goes in any
case, and `after` is the cut behind the closing tag of the chain. -/
def ofLink (before : Cut) (marked lone last : Bool) (after : Cut) : List Statement → List Piece
  | [.block ⟨_, main, inverse, opening, middle, closing, _⟩] =>
      .tag before (.of (opening.after || marked) lone) ::
        (ofSection main ++ ofInverse middle closing last false after main inverse)
  | _ => []

end

end Piece
/-! ## Texts between tags -/

/-- The cut at the end of a text before some pieces.  `e` is the one if there is
none. -/
def headCut (e : Cut) : List Piece → Cut
  | [] => e
  | .text _ :: _ => .none
  | .tag before _ :: _ => before

/-- The cut at the start of a text behind some pieces.  `s` is the one if there
is none. -/
def lastCut (s : Cut) : List Piece → Cut
  | [] => s
  | .text _ :: ds => lastCut .none ds
  | .tag _ after :: ds => lastCut after ds

/-- The texts of a row of pieces came to be the given ones: each was cut by the
piece before it and by the piece behind it, and the outer ends of the row were
cut by `s` and `e`. -/
inductive CutBy : Cut → List Piece → Cut → List Content → Prop where
  | nil (s e : Cut) : CutBy s [] e []
  | text {s e : Cut} {c d : Content} {ds : List Piece} {cs : List Content}
      (h : c.CutTo s (headCut e ds) d) (hds : CutBy .none ds e cs) :
      CutBy s (.text c :: ds) e (d :: cs)
  | tag {s e before after : Cut} {ds : List Piece} {cs : List Content}
      (hds : CutBy after ds e cs) : CutBy s (.tag before after :: ds) e cs

theorem headCut_append (e : Cut) (ds es : List Piece) :
    headCut e (ds ++ es) = headCut (headCut e es) ds := by
  cases ds with
  | nil => rfl
  | cons d ds => cases d <;> rfl

theorem lastCut_append (s : Cut) (ds es : List Piece) :
    lastCut s (ds ++ es) = lastCut (lastCut s ds) es := by
  induction ds generalizing s with
  | nil => rfl
  | cons d ds ih =>
      cases d with
      | text c => exact ih .none
      | tag before after => exact ih after

theorem CutBy.append {s e : Cut} {ds es : List Piece} {cs cs' : List Content}
    (h : CutBy s ds (headCut e es) cs) (h' : CutBy (lastCut s ds) es e cs') :
    CutBy s (ds ++ es) e (cs ++ cs') := by
  induction ds generalizing s cs with
  | nil =>
      cases h with
      | nil => exact h'
  | cons d ds ih =>
      cases h with
      | text hd hds =>
          rw [← headCut_append] at hd
          exact .text hd (ih hds h')
      | tag hds => exact .tag (ih hds h')

/-- The texts of a part of a row. -/
theorem CutBy.exists_append {s e : Cut} {ds es : List Piece} {cs : List Content}
    (h : CutBy s (ds ++ es) e cs) :
    ∃ front behind, cs = front ++ behind ∧ CutBy s ds (headCut e es) front ∧
      CutBy (lastCut s ds) es e behind := by
  induction ds generalizing s cs with
  | nil => exact ⟨[], cs, rfl, .nil _ _, h⟩
  | cons d ds ih =>
      rw [List.cons_append] at h
      cases h with
      | text hd hds =>
          obtain ⟨front, behind, rfl, hfront, hbehind⟩ := ih hds
          rw [headCut_append] at hd
          exact ⟨_ :: front, behind, rfl, .text hd hfront, hbehind⟩
      | tag hds =>
          obtain ⟨front, behind, rfl, hfront, hbehind⟩ := ih hds
          exact ⟨front, behind, rfl, .tag hfront, hbehind⟩

theorem CutBy.concat_tag {s before : Cut} {ds : List Piece} {cs : List Content}
    (h : CutBy s ds before cs) (after e : Cut) :
    CutBy s (ds ++ [.tag before after]) e cs := by
  have htag : CutBy (lastCut s ds) [.tag before after] e [] := .tag (.nil _ _)
  have happend := h.append htag
  rw [List.append_nil] at happend
  exact happend

/-! ## The same, statement by statement -/

/-- The texts of some statements were cut by their pieces, and by `s` and `e` at
the outer ends.  A statement that is no text starts and ends with a tag, so that
its neighbours do not matter. -/
inductive CutBody : Cut → List (List Piece) → Cut → List Statement → Prop where
  | nil (s e : Cut) : CutBody s [] e []
  | content {s e : Cut} {c d : Content} {dss : List (List Piece)} {body : List Statement}
      (h : c.CutTo s (headCut e dss.flatten) d) (hb : CutBody .none dss e body) :
      CutBody s ([.text c] :: dss) e (.content d :: body)
  | tag {s e before after : Cut} {ds : List Piece} {dss : List (List Piece)} {t : Statement}
      {body : List Statement} (ht : ∀ c, t ≠ .content c)
      (hds : ∀ e, CutBy after ds e t.contents) (hb : CutBody (lastCut after ds) dss e body) :
      CutBody s ((.tag before after :: ds) :: dss) e (t :: body)

namespace CutBody

variable {s s' e e' : Cut} {dss : List (List Piece)} {body : List Statement}
  {f : Content → Content}

theorem cutBy (h : CutBody s dss e body) : CutBy s dss.flatten e (Body.contents body) := by
  induction h with
  | nil s e => exact .nil s e
  | content h _ ih => exact .text h ih
  | tag _ hds _ ih => exact .tag ((hds _).append ih)

theorem cutBy_program {p : Program} (h : CutBody s dss e p.body) :
    CutBy s dss.flatten e p.contents := by
  obtain ⟨body, blockParams, chained, loc⟩ := p
  exact h.cutBy

/-- A cut at the start of the first text. -/
theorem onFirst (hf : ∀ {e c d}, Content.CutTo s e c d → Content.CutTo s' e c (f d))
    (h : CutBody s dss e body) : CutBody s' dss e (onFirst f body) := by
  cases h with
  | nil => exact .nil s' e
  | content h hb => exact .content (hf h) hb
  | tag ht hds hb =>
      rw [onFirst_cons_of_ne f ht]
      exact .tag ht hds hb

/-- What stands behind a row does not matter if there is something in it. -/
theorem headCut_flatten (h : CutBody s dss e body) (hne : body ≠ []) (e e' : Cut) :
    headCut e dss.flatten = headCut e' dss.flatten := by
  cases h with
  | nil => exact absurd rfl hne
  | content _ _ => rfl
  | tag _ _ _ => rfl

/-- A cut at the end of the last text. -/
theorem onLast (hf : ∀ {s c d}, Content.CutTo s e c d → Content.CutTo s e' c (f d))
    (h : CutBody s dss e body) : CutBody s dss e' (onLast f body) := by
  induction body generalizing s dss with
  | nil =>
      cases h with
      | nil => exact .nil s e'
  | cons t rest ih =>
      cases rest with
      | nil =>
          cases h with
          | content h hb =>
              cases hb with
              | nil => exact .content (hf h) (.nil _ e')
          | tag ht hds hb =>
              rw [onLast_singleton_of_ne f ht]
              cases hb with
              | nil => exact .tag ht hds (.nil _ e')
      | cons t' rest =>
          rw [onLast_cons_cons]
          cases h with
          | content h hb =>
              rw [hb.headCut_flatten (List.cons_ne_nil _ _) e e'] at h
              exact .content h (ih hb)
          | tag ht hds hb => exact .tag ht hds (ih hb)

end CutBody

/-! ## Trims at the ends of a section -/

section

variable {s e : Cut} {dss : List (List Piece)} {p : Program}

theorem cutBody_trimStart (marked : Bool) (h : CutBody s dss e p.body) :
    CutBody (s.join (.of marked false)) dss e
      (if marked then onBody (onFirst Content.trimStart) p else p).body := by
  have hcut := h.onFirst fun h => h.trimStart_ite marked
  rw [← onFirst_ite] at hcut
  cases marked <;> exact hcut

theorem cutBody_trimLine (alone : Bool) (h : CutBody s dss e p.body) :
    CutBody (s.join (.of false alone)) dss e
      (if alone then onBody (onFirst Content.trimLine) p else p).body := by
  have hcut := h.onFirst fun h => h.trimLine_ite alone
  rw [← onFirst_ite] at hcut
  cases alone <;> exact hcut

theorem cutBody_trimEnd (marked : Bool) (h : CutBody s dss e p.body) :
    CutBody s dss (e.join (.of marked false))
      (if marked then onBody (onLast Content.trimEnd) p else p).body := by
  have hcut := h.onLast fun h => h.trimEnd_ite marked
  rw [← onLast_ite] at hcut
  cases marked <;> exact hcut

theorem cutBody_trimPadding (alone : Bool) (h : CutBody s dss e p.body) :
    CutBody s dss (e.join (.of false alone))
      (if alone then onBody (onLast Content.trimPadding) p else p).body := by
  have hcut := h.onLast fun h => h.trimPadding_ite alone
  rw [← onLast_ite] at hcut
  cases alone <;> exact hcut

end

end Layout
end Stache
