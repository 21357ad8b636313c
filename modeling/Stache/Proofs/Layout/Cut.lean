import Stache.Proofs.Layout.Content
import Stache.Proofs.Tree.Raw

/-!
# Cuts

All that happens to one end of a text comes to one cut: nothing goes, the
padding with at most one line break goes, or all white space goes.  Cuts at one
end join, the stronger one wins, and it does not matter which trim came first
nor what happens at the other end (`Content.CutTo`).
-/

namespace Stache

/-- What goes at one end of a text. -/
inductive Cut where
  /-- Nothing. -/
  | none
  /-- The padding, at the start with a line break. -/
  | line
  /-- All white space. -/
  | all
deriving DecidableEq, Repr

namespace Cut

/-- The cut that a tag makes: `all` for its marker, `line` for a tag that stands
alone. -/
def of (marked alone : Bool) : Cut :=
  if marked then .all else if alone then .line else .none

/-- The stronger one of two cuts. -/
def join : Cut → Cut → Cut
  | .all, _ => .all
  | _, .all => .all
  | .line, _ => .line
  | .none, c => c

/-- A text cut at its start. -/
def atStart : Cut → Text → Text
  | .none, t => t
  | .line, t => t.trimLine
  | .all, t => t.trimStart

/-- A text cut at its end. -/
def atEnd : Cut → Text → Text
  | .none, t => t
  | .line, t => t.trimPadding
  | .all, t => t.trimEnd

@[simp] theorem join_none (c : Cut) : c.join .none = c := by cases c <;> rfl

@[simp] theorem none_join (c : Cut) : Cut.none.join c = c := by cases c <;> rfl

@[simp] theorem join_all (c : Cut) : c.join .all = .all := by cases c <;> rfl

@[simp] theorem of_false_false : of false false = .none := rfl

/-- Two tags at one end of a text cut there what each of them does. -/
theorem of_join_of (marked alone marked' alone' : Bool) :
    (of marked alone).join (of marked' alone') = of (marked || marked') (alone || alone') := by
  cases marked <;> cases alone <;> cases marked' <;> cases alone' <;> rfl

/-- The two ends of a text do not disturb each other. -/
theorem atEnd_atStart (s e : Cut) (t : Text) :
    e.atEnd (s.atStart t) = s.atStart (e.atEnd t) := by
  cases s with
  | none => rfl
  | line =>
      cases e with
      | none => rfl
      | line => exact Text.trimPadding_trimLine t
      | all => exact Text.trimEnd_trimLine t
  | all =>
      cases e with
      | none => rfl
      | line => exact Text.trimPadding_trimStart t
      | all => exact Text.trimEnd_trimStart t

/-- Behind a cut at the start all white space can still be trimmed there. -/
theorem trimStart_atStart (s : Cut) (t : Text) : (s.atStart t).trimStart = t.trimStart := by
  cases s with
  | none => rfl
  | line => exact Text.trimStart_trimLine t
  | all => exact Text.trimStart_trimStart t

/-- Behind a cut at the end all white space can still be trimmed there. -/
theorem trimEnd_atEnd (e : Cut) (t : Text) : (e.atEnd t).trimEnd = t.trimEnd := by
  cases e with
  | none => rfl
  | line => exact Text.trimEnd_trimPadding t
  | all => exact Text.trimEnd_trimEnd t

end Cut

/-- The cuts `s` and `e` are all that happened to a text from when it was
written.  An end is marked only if it was cut, and where it was cut the trim of
one line has nothing left to do. -/
structure Content.CutTo (s e : Cut) (c d : Content) : Prop where
  /-- The value is what was written, cut at both ends. -/
  value : d.value = e.atEnd (s.atStart c.written)
  written : d.written = c.written
  /-- The start is marked only if it was cut. -/
  start_ne_none : d.rightStripped = true → s ≠ .none
  /-- The end is marked only if it was cut. -/
  end_ne_none : d.leftStripped = true → e ≠ .none
  /-- A cut start has no line to trim. -/
  trimLine_eq : s ≠ .none → d.trimLine = d
  /-- A cut end has no padding to trim. -/
  trimPadding_eq : e ≠ .none → d.trimPadding = d

namespace Content.CutTo

variable {s e : Cut} {c d : Content}

/-- A text that no trim has touched is cut nowhere. -/
theorem fresh (h : c.Fresh) : CutTo .none .none c c :=
  ⟨h.1, rfl, fun hr => absurd hr (by simp [h.2.2]), fun hl => absurd hl (by simp [h.2.1]),
    fun hn => absurd rfl hn, fun hn => absurd rfl hn⟩

/-- A cut end is settled for the trims of the other end, too. -/
theorem apply_trimPadding_eq (h : CutTo s e c d) (t : Trim) (he : e ≠ .none) :
    (t.apply d).trimPadding = t.apply d :=
  Trim.padding.apply_settled t (h.trimPadding_eq he)

/-- A line is trimmed at the start only once, whatever is trimmed in between. -/
theorem apply_trimLine_eq (h : CutTo s e c d) (t : Trim) (hs : s ≠ .none) :
    (t.apply d).trimLine = t.apply d :=
  Trim.line.apply_settled t (h.trimLine_eq hs)

/-- A trim at the start cuts all white space there. -/
theorem trimStart (h : CutTo s e c d) : CutTo .all e c d.trimStart where
  value := by
    show d.value.trimStart = e.atEnd c.written.trimStart
    rw [h.value, Cut.atEnd_atStart, Cut.trimStart_atStart]
    exact (Cut.atEnd_atStart .all e c.written).symm
  written := h.written
  start_ne_none := fun _ he => nomatch he
  end_ne_none := h.end_ne_none
  trimLine_eq := fun _ => by
    rw [Content.trimLine_eq_self_iff]
    exact .inr (Text.trimLine_eq_self_of_trimStart (Text.trimStart_trimStart d.value))
  trimPadding_eq := h.apply_trimPadding_eq .start

/-- A trim at the end cuts all white space there. -/
theorem trimEnd (h : CutTo s e c d) : CutTo s .all c d.trimEnd where
  value := by
    show d.value.trimEnd = (s.atStart c.written).trimEnd
    rw [h.value, Cut.trimEnd_atEnd]
  written := h.written
  start_ne_none := h.start_ne_none
  end_ne_none := fun _ he => nomatch he
  trimLine_eq := h.apply_trimLine_eq .finish
  trimPadding_eq := fun _ => by
    rw [Content.trimPadding_eq_self_iff]
    exact .inr (Text.trimPadding_eq_self_of_trimEnd (Text.trimEnd_trimEnd d.value))

/-- A start that was cut before stays, and one that was not loses its line. -/
theorem trimLine (h : CutTo s e c d) : CutTo (s.join .line) e c d.trimLine := by
  by_cases hs : s = .none
  · subst hs
    have hr : d.rightStripped = false := by
      rw [Bool.eq_false_iff]
      exact fun hr => h.start_ne_none hr rfl
    have htrim : d.trimLine = d.withStart d.value.trimLine := by
      rw [Content.trimLine, hr]
      rfl
    refine ⟨?_, ?_, (fun _ hn => by cases hn), ?_, fun _ => Trim.line.apply_apply d,
      h.apply_trimPadding_eq .line⟩
    · rw [htrim, Content.withStart_value, h.value]
      exact (Cut.atEnd_atStart .line e c.written).symm
    · rw [htrim]
      exact h.written
    · rw [htrim]
      exact h.end_ne_none
  · have hjoin : s.join .line = s := by
      cases s with
      | none => exact absurd rfl hs
      | line => rfl
      | all => rfl
    rw [hjoin, h.trimLine_eq hs]
    exact h

/-- A trim of padding cuts a line at the end, unless more is cut. -/
theorem trimPadding (h : CutTo s e c d) : CutTo s (e.join .line) c d.trimPadding := by
  by_cases he : e = .none
  · subst he
    have hl : d.leftStripped = false := by
      rw [Bool.eq_false_iff]
      exact fun hl => h.end_ne_none hl rfl
    have htrim : d.trimPadding = d.withEnd d.value.trimPadding := by
      rw [Content.trimPadding, hl]
      rfl
    refine ⟨?_, ?_, ?_, (fun _ hn => by cases hn), h.apply_trimLine_eq .padding,
      fun _ => Trim.padding.apply_apply d⟩
    · rw [htrim, Content.withEnd_value, h.value]
      rfl
    · rw [htrim]
      exact h.written
    · rw [htrim]
      exact h.start_ne_none
  · have hjoin : e.join .line = e := by
      cases e with
      | none => exact absurd rfl he
      | line => rfl
      | all => rfl
    rw [hjoin, h.trimPadding_eq he]
    exact h

/-! The same under a condition. -/

/-- A marker behind a tag cuts all white space, if it is there. -/
theorem trimStart_ite (b : Bool) (h : CutTo s e c d) :
    CutTo (s.join (.of b false)) e c (if b then d.trimStart else d) := by
  cases b with
  | false =>
      show CutTo (s.join .none) e c d
      rw [Cut.join_none]
      exact h
  | true =>
      rw [Cut.of, if_pos rfl, Cut.join_all]
      exact h.trimStart

/-- A tag alone cuts the rest of its line. -/
theorem trimLine_ite (b : Bool) (h : CutTo s e c d) :
    CutTo (s.join (.of false b)) e c (if b then d.trimLine else d) := by
  cases b with
  | false =>
      show CutTo (s.join .none) e c d
      rw [Cut.join_none]
      exact h
  | true => exact h.trimLine

/-- A marker in front of a tag cuts all white space, if it is there. -/
theorem trimEnd_ite (b : Bool) (h : CutTo s e c d) :
    CutTo s (e.join (.of b false)) c (if b then d.trimEnd else d) := by
  cases b with
  | false =>
      show CutTo s (e.join .none) c d
      rw [Cut.join_none]
      exact h
  | true =>
      rw [Cut.of, if_pos rfl, Cut.join_all]
      exact h.trimEnd

/-- A tag alone cuts the padding in front of it. -/
theorem trimPadding_ite (b : Bool) (h : CutTo s e c d) :
    CutTo s (e.join (.of false b)) c (if b then d.trimPadding else d) := by
  cases b with
  | false =>
      show CutTo s (e.join .none) c d
      rw [Cut.join_none]
      exact h
  | true => exact h.trimPadding

end Content.CutTo

end Stache
