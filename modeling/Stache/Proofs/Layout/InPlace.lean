import Stache.Layout.InPlace
import Stache.Proofs.Layout.Frame

/-!
# The pass in place

The pass as an edit never fails, and it leads to the same tree and the same
control as the pass that settles, judges and aligns (`edit_eq`).

Between two steps over a list, the texts already passed still lack the trims at
their ends that the next tag makes, and the first text ahead has the trims at
its start already.  With these two differences the list in place is the aligned
one, and each step keeps that so.
-/

namespace Stache
namespace Layout

/-! ## Pieces that end well -/

/-- From a control, a piece of the pass ends with a result and a control, and
leaves the stack as it found it. -/
def Yields {α : Type} (m : Controlled α) (c : Control) (a : α) (c' : Control) : Prop :=
  ∀ stack : List Frame, ∃ visits, (m c).run stack = ⟨.ok (a, c'), visits, stack⟩

namespace Yields

variable {α β : Type} {c c' c'' : Control}

theorem pure (a : α) (c : Control) : Yields (Pure.pure a) c a c := fun _ => ⟨[], rfl⟩

theorem get (c : Control) : Yields (MonadState.get : Controlled Control) c c c :=
  fun _ => ⟨[], rfl⟩

theorem set (c c' : Control) : Yields (MonadStateOf.set c' : Controlled PUnit) c ⟨⟩ c' :=
  fun _ => ⟨[], rfl⟩

/-- One piece goes on with what the other yields. -/
theorem bind {m : Controlled α} {next : α → Controlled β} {a : α} {b : β}
    (hm : Yields m c a c') (hnext : Yields (next a) c' b c'') :
    Yields (m >>= next) c b c'' := by
  intro stack
  obtain ⟨visits, h⟩ := hm stack
  obtain ⟨visits', h'⟩ := hnext stack
  refine ⟨visits ++ visits', ?_⟩
  show (Walk.andThen (m c).run _) stack = _
  rw [Walk.andThen, h]
  show Walked.mk ((next a c').run stack).value (visits ++ ((next a c').run stack).visits)
    ((next a c').run stack).stack = _
  rw [h']

/-- A piece yields the same inside a node. -/
theorem within {m : Controlled α} {a : α} (node : Node) (h : Yields m c a c') :
    Yields (InPlace.within node m) c a c' := by
  intro stack
  obtain ⟨visits, h⟩ := h (node.frame :: stack)
  refine ⟨⟨node, stack⟩ :: visits, ?_⟩
  show Walk.visit node (m c).run stack = _
  rw [Walk.visit_apply, h]
  rfl

end Yields

/-! ## One tag -/

section

variable (f g : Content → Content)

/-- Two changes of the first text are one. -/
theorem onFirst_onFirst (body : List Statement) :
    onFirst f (onFirst g body) = onFirst (fun c => f (g c)) body := by
  cases body with
  | nil => rfl
  | cons s rest => cases s <;> rfl

/-- The first text of a list that is changed is the changed one. -/
theorem textAt_onFirst (body : List Statement) :
    textAt (onFirst f body) = (textAt body).map f := by
  cases body with
  | nil => rfl
  | cons s rest => cases s <;> rfl

/-- A list that starts with a tag has no text at its start. -/
theorem textAt_cons_of_ne {s : Statement} (hs : ∀ c, s ≠ .content c) (rest : List Statement) :
    textAt (s :: rest) = none := by
  cases s with
  | content c => exact absurd rfl (hs c)
  | _ => rfl

end

namespace Spot

variable (v : Verdict) (x : Spot)

/-- Markers trim the end of the text in front of the tag. -/
theorem markers_before : (x.markers v).before =
    onFirst (fun c => if v.allBefore then c.trimEnd else c) x.before := by
  rw [← onFirst_ite]
  unfold markers
  split <;> split <;> rfl

/-- A tag alone on its line takes the padding in front of it. -/
theorem inline_before : (x.inline v).before =
    onFirst (fun c => if v.inlineAlone then c.trimPadding else c) x.before := by
  rw [← onFirst_ite]
  unfold inline
  split <;> rfl

/-- An opening tag alone on its line takes the padding in front of it. -/
theorem opening_before : (x.opening v).before =
    onFirst (fun c => if v.openAlone then c.trimPadding else c) x.before := by
  rw [← onFirst_ite]
  unfold opening
  split <;> rfl

/-- A closing tag leaves the text in front of its block alone. -/
theorem closing_before : (x.closing v).before = x.before := by
  unfold closing
  split <;> rfl

/-- Markers trim the start of the text behind the tag. -/
theorem markers_after : (x.markers v).after =
    onFirst (fun c => if v.allAfter then c.trimStart else c) x.after := by
  rw [← onFirst_ite]
  unfold markers
  split <;> split <;> rfl

/-- A tag alone on its line takes the rest of the line. -/
theorem inline_after : (x.inline v).after =
    onFirst (fun c => if v.inlineAlone then c.trimLine else c) x.after := by
  rw [← onFirst_ite]
  unfold inline
  split <;> rfl

/-- An opening tag leaves the text behind its block alone. -/
theorem opening_after : (x.opening v).after = x.after := by
  unfold opening
  split <;> rfl

/-- A closing tag alone on its line takes the rest of the line. -/
theorem closing_after : (x.closing v).after =
    onFirst (fun c => if v.closeAlone then c.trimLine else c) x.after := by
  rw [← onFirst_ite]
  unfold closing
  split <;> rfl

/-- In place, a tag may trim the padding before it twice.  Once is enough. -/
theorem trim_before : (x.trim v).before = onFirst (beforeTag (some v)) x.before := by
  rw [trim, closing_before, opening_before, inline_before, markers_before, onFirst_onFirst,
    onFirst_onFirst]
  refine congrArg (onFirst · x.before) (funext fun c => ?_)
  have htwice := Trim.padding.apply_apply
  simp only [Trim.apply] at htwice
  cases hi : v.inlineAlone <;> cases ho : v.openAlone <;>
    simp [beforeTag, Verdict.lineBefore, hi, ho, htwice]

/-- The same for the line behind it. -/
theorem trim_after : (x.trim v).after = onFirst (afterTag (some v)) x.after := by
  rw [trim, closing_after, opening_after, inline_after, markers_after, onFirst_onFirst,
    onFirst_onFirst]
  refine congrArg (onFirst · x.after) (funext fun c => ?_)
  have htwice := Trim.line.apply_apply
  simp only [Trim.apply] at htwice
  cases hi : v.inlineAlone <;> cases hc : v.closeAlone <;>
    simp [afterTag, Verdict.lineAfter, hi, hc, htwice]

theorem markers_here : (x.markers v).here = x.here := by
  unfold markers
  split <;> split <;> rfl

/-- A partial takes the padding that the trim before it removes. -/
theorem inline_here_inclusion {node : Inclusion} (h : x.here = .inclusion node) :
    ((x.markers v).inline v).here = finish (textAt x.before) v (.inclusion node) := by
  have htext : textAt (x.markers v).before =
      (textAt x.before).map fun c => if v.allBefore then c.trimEnd else c := by
    rw [markers_before, textAt_onFirst]
  unfold inline
  rw [htext, markers_here, h]
  cases ht : textAt x.before with
  | none =>
      split
      · rfl
      · exact (markers_here v x).trans h
  | some c =>
      cases hi : v.inlineAlone with
      | false => simp [finish, indentAfter, hi, markers_here, h]
      | true =>
          have hindent : indentAfter v c node.indent =
              if losesPadding (if v.allBefore then c.trimEnd else c) then
                (if v.allBefore then c.trimEnd else c).written.padding
              else node.indent := by
            unfold indentAfter losesPadding
            rw [hi]
            rfl
          simp only [finish, hindent, Option.map_some, ↓reduceIte]
          generalize (if v.allBefore = true then c.trimEnd else c) = d
          cases losesPadding d <;> rfl

/-- A tag alone on its line stays as it is, unless it is a partial. -/
theorem inline_here_of_ne (h : ∀ node, x.here ≠ .inclusion node) :
    (x.inline v).here = x.here := by
  have hset : ∀ indent, setIndent indent x.here = x.here := by
    intro indent
    unfold setIndent
    split
    · next node heq => exact absurd heq (h node)
    · rfl
  unfold inline
  split
  · split
    · rw [hset, ite_self]
    · rfl
  · rfl

/-- An opening tag alone on its line takes the rest of the line in its section. -/
theorem opening_here : (x.opening v).here =
    if v.openAlone then onOpening (onFirst Content.trimLine) x.here else x.here := by
  unfold opening
  split <;> rfl

/-- A closing tag alone on its line takes the padding in front of it in its section. -/
theorem closing_here : (x.closing v).here =
    if v.closeAlone then onClosing (onLast Content.trimPadding) x.here else x.here := by
  unfold closing
  split <;> rfl

/-- The inside of a block, at the opening and at the closing tag. -/
theorem closing_opening_block (node : Block) :
    (if v.closeAlone then
        onClosing (onLast Content.trimPadding)
          (if v.openAlone then onOpening (onFirst Content.trimLine) (.block node)
            else .block node)
      else if v.openAlone then onOpening (onFirst Content.trimLine) (.block node)
        else .block node) = finish (textAt x.before) v (.block node) := by
  obtain ⟨call, program, inverse, opening, middle, closing, loc⟩ := node
  simp only [finish, insideSections]
  cases v.openAlone <;> cases v.closeAlone <;> cases program <;> cases inverse <;> rfl

theorem closing_opening_decoratorBlock (node : Block) :
    (if v.closeAlone then
        onClosing (onLast Content.trimPadding)
          (if v.openAlone then onOpening (onFirst Content.trimLine) (.decoratorBlock node)
            else .decoratorBlock node)
      else if v.openAlone then onOpening (onFirst Content.trimLine) (.decoratorBlock node)
        else .decoratorBlock node) = finish (textAt x.before) v (.decoratorBlock node) := by
  obtain ⟨call, program, inverse, opening, middle, closing, loc⟩ := node
  simp only [finish, insideSections]
  cases v.openAlone <;> cases v.closeAlone <;> cases program <;> cases inverse <;> rfl

theorem closing_opening_inclusionBlock (node : InclusionBlock) :
    (if v.closeAlone then
        onClosing (onLast Content.trimPadding)
          (if v.openAlone then onOpening (onFirst Content.trimLine) (.inclusionBlock node)
            else .inclusionBlock node)
      else if v.openAlone then onOpening (onFirst Content.trimLine) (.inclusionBlock node)
        else .inclusionBlock node) = finish (textAt x.before) v (.inclusionBlock node) := by
  obtain ⟨call, program, opening, closing, loc⟩ := node
  simp only [finish, insideBody]
  cases v.openAlone <;> cases v.closeAlone <;> rfl

/-- **The steps together make of a tag what its verdict says.** -/
theorem trim_here : (x.trim v).here = finish (textAt x.before) v x.here := by
  rw [trim, closing_here, opening_here]
  have hne := inline_here_of_ne v (x.markers v)
  rw [markers_here] at hne
  cases hx : x.here with
  | inclusion node =>
      rw [inline_here_inclusion v x hx]
      cases textAt x.before <;> simp only [finish, onOpening, onClosing, ite_self]
  | block node =>
      rw [hne (by simp [hx]), hx]
      exact closing_opening_block v x node
  | decoratorBlock node =>
      rw [hne (by simp [hx]), hx]
      exact closing_opening_decoratorBlock v x node
  | inclusionBlock node =>
      rw [hne (by simp [hx]), hx]
      exact closing_opening_inclusionBlock v x node
  | mustache node | decorator node | content node | comment node =>
      rw [hne (by simp [hx]), hx]
      simp only [finish, onOpening, onClosing, ite_self]

end Spot

/-! ## The whole pass -/

/-- Behind no tag no text is trimmed. -/
theorem onFirst_afterTag_none (body : List Statement) : onFirst (afterTag none) body = body := by
  cases body with
  | nil => rfl
  | cons s rest => cases s <;> rfl

theorem onFirst_beforeTag_none (body : List Statement) :
    onFirst (beforeTag none) body = body := by
  cases body with
  | nil => rfl
  | cons s rest => cases s <;> rfl

section

variable (i : Bool)

/-- A text is left to the tags around it. -/
theorem yields_content (c : Content) :
    Yields (InPlace.statement (.content c)) ⟨i, true⟩ (.content c, none) ⟨i, true⟩ := by
  rw [InPlace.statement]
  exact .within _ (.pure _ _)

mutual

/-- **The pass in place yields the program that the pass by verdicts makes.**  From then on a
program is no root any more. -/
theorem yields_program (seen : Bool) : ∀ p : Program,
    Yields (InPlace.program p) ⟨i, seen⟩ ⟨program i (!seen) p, p.loc, .keep⟩ ⟨i, true⟩
  | ⟨body, blockParams, chained, loc⟩ => by
      have h := yields_statements (!seen) body none .nil
      rw [onFirst_afterTag_none] at h
      rw [InPlace.program]
      exact .within _ (.bind (.get _) (.bind (.set _ _) (.bind h (.pure _ _))))

/-- Statements are trimmed from left to right. The list behind a text moves on, and the
text keeps its end until the next tag is known. -/
theorem yields_statements (root : Bool) :
    ∀ (body : List Statement) {before before' : List Statement} (tag : Option Verdict),
      Body.TrimsTo before before' →
      Yields (InPlace.statements root before' (onFirst (afterTag tag) body)) ⟨i, true⟩
        ((onFirst (beforeTag (verdictAt (judgeAll i root before (settleAll i body))))
          before').reverse ++
        align tag (textAt before') (judgeAll i root before (settleAll i body))) ⟨i, true⟩
  | [], before, before', tag, hb => by
      show Yields (InPlace.statements root before' []) _
        ((onFirst (beforeTag none) before').reverse ++ []) _
      rw [InPlace.statements, onFirst_beforeTag_none, List.append_nil]
      exact .pure _ _
  | s :: rest, before, before', tag, hb => by
      rcases s.content_or_ne with ⟨c, rfl⟩ | hs
      · have hrest := yields_statements root rest none
          (.cons (.content (trimsTo_afterTag tag c)) hb)
        rw [onFirst_afterTag_none, onFirst, List.reverse_cons, List.append_assoc] at hrest
        show Yields (InPlace.statements root before' (.content (afterTag tag c) :: rest)) _
          ((onFirst (beforeTag none) before').reverse ++ _) _
        rw [InPlace.statements, onFirst_beforeTag_none]
        exact .bind (yields_content i (afterTag tag c)) hrest
      · obtain ⟨s', strip, hsettle, hs'⟩ := settle_of_ne i hs
        have hstatement := yields_statement s
        rw [hsettle] at hstatement
        obtain ⟨v, hv⟩ : ∃ v, v = judge i root strip before' rest := ⟨_, rfl⟩
        have hjudge : judge i root strip before ((settleAll i rest).map Prod.fst) = v := by
          rw [hv, judge_of_trimsTo hb (Body.TrimsTo.refl rest),
            judge_of_trimsTo (Body.TrimsTo.refl before) (trimsTo_settleAll i rest)]
        have hrest := yields_statements root rest (some v)
          (.cons (trimsTo_finish (textAt before') v s')
            (hb.trans (trimsTo_onFirst (trimsTo_beforeTag (some v)) before')))
        have hne := finish_of_ne hs' (textAt before') v
        rw [onFirst_cons_of_ne _ hne, textAt_cons_of_ne hne, List.reverse_cons,
          List.append_assoc] at hrest
        rw [onFirst_cons_of_ne _ hs, InPlace.statements, settleAll, hsettle]
        refine .bind hstatement (.bind (.get _) ?_)
        simp only [judgeAll, Option.map_some, hjudge, align_cons_of_ne hs']
        show Yields (InPlace.statements root
          ((Spot.trim (judge i root strip before' rest) ⟨before', s', rest⟩).here ::
            (Spot.trim (judge i root strip before' rest) ⟨before', s', rest⟩).before)
          (Spot.trim (judge i root strip before' rest) ⟨before', s', rest⟩).after) _ _ _
        rw [← hv, Spot.trim_here, Spot.trim_before, Spot.trim_after]
        exact hrest

/-- A statement is settled, and its markers are reported to the list that it stands in. -/
theorem yields_statement : ∀ s : Statement,
    Yields (InPlace.statement s) ⟨i, true⟩ (settle i s) ⟨i, true⟩
  | .mustache node => by
      rw [InPlace.statement]
      exact .within _ (.pure _ _)
  | .decorator node => by
      rw [InPlace.statement]
      exact .within _ (.pure _ _)
  | .inclusion node => by
      rw [InPlace.statement]
      exact .within _ (.pure _ _)
  | .comment node => by
      rw [InPlace.statement]
      exact .within _ (.pure _ _)
  | .content node => yields_content i node
  | .block ⟨call, main, inverse, opening, middle, closing, loc⟩ => by
      rw [InPlace.statement]
      exact .within _ (.bind (yields_section main) (.bind (yields_section inverse)
        (.bind (.get _) (.pure _ _))))
  | .decoratorBlock ⟨call, main, inverse, opening, middle, closing, loc⟩ => by
      rw [InPlace.statement]
      exact .within _ (.bind (yields_section main) (.bind (yields_section inverse)
        (.bind (.get _) (.pure _ _))))
  | .inclusionBlock ⟨call, main, opening, closing, loc⟩ => by
      rw [InPlace.statement]
      exact .within _ (.bind (yields_program true main) (.bind (.get _) (.pure _ _)))

/-- A section is normalized where it stands. -/
theorem yields_section : ∀ p : Option Program,
    Yields (InPlace.section? p) ⟨i, true⟩ (bodyOf i p) ⟨i, true⟩
  | none => by
      rw [InPlace.section?]
      exact .pure _ _
  | some p => by
      rw [InPlace.section?]
      exact .bind (yields_program true p) (.pure _ _)

end

end

/-- The pass as an edit does not fail, leaves every node that it entered, and
leads to the normalized tree. -/
theorem Control.edit_eq (c : Control) (p : Program) :
    ∃ visits, c.edit p = ⟨.ok (c.normalize p), visits, []⟩ := by
  obtain ⟨visits, h⟩ := yields_program c.ignoreStandalone c.rootSeen p []
  refine ⟨visits ++ [], ?_⟩
  show (Walk.andThen ((InPlace.program p c).run) _) [] = _
  rw [Walk.andThen, h]
  rfl

end Layout
end Stache
