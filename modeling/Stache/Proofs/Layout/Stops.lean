import Stache.Proofs.Layout.InPlace
import Stache.Proofs.Layout.Inclusions

/-!
# The stops of the pass in place

The pass in place stops at each tag of a list to trim the texts around it.  A
stop is the list at that moment together with the verdict on the tag.  The stops
of a template are those inside of its blocks and those of its own list, in the
order in which the pass comes to them.

The partials of the normalized tree are the partials of the stops as these leave
them (`inclusions_program`).  So what a partial is in the end was decided at one
stop, and nothing that the pass does later touches it.
-/

namespace Stache

/-- The partial that a statement is. -/
def Statement.inclusion? : Statement → Option Inclusion
  | .inclusion node => some node
  | _ => none

theorem Statement.inclusion_or_ne (s : Statement) :
    (∃ node, s = .inclusion node) ∨ ∀ node, s ≠ .inclusion node := by
  cases s with
  | inclusion node => exact .inl ⟨node, rfl⟩
  | _ => exact .inr fun _ h => Statement.noConfusion h

theorem Statement.inclusion?_eq_none {s : Statement} (hs : ∀ node, s ≠ .inclusion node) :
    s.inclusion? = none := by
  cases s with
  | inclusion node => exact absurd rfl (hs node)
  | _ => rfl

namespace Layout

/-! ## Stops -/

/-- A tag in its list, when the pass comes to trim around it, and the verdict on
it. -/
structure Stop where
  spot : Spot
  verdict : Verdict

namespace Stop

/-- The list after the trims at the markers of the tag, right before the trims
of a tag that stands alone as a whole. -/
def marked (x : Stop) : Spot := x.spot.markers x.verdict

/-- The list right after the trims of a tag that stands alone as a whole. -/
def alone (x : Stop) : Spot := x.marked.inline x.verdict

/-- The list after all trims of the tag. -/
def done (x : Stop) : Spot := x.spot.trim x.verdict

/-- The partial that the tag is, as the stop leaves it. -/
def inclusion? (x : Stop) : Option Inclusion := x.done.here.inclusion?

end Stop

section

variable (i : Bool)

mutual

/-- The stops of the pass over a program. -/
def programStops (root : Bool) : Program → List Stop
  | ⟨body, _, _, _⟩ => bodyStops root [] body
termination_by p => programWeight p
decreasing_by simp only [programWeight]; omega

/-- The stops over a list of statements that follows `before`. -/
def bodyStops (root : Bool) (before : List Statement) : List Statement → List Stop
  | [] => []
  | s :: rest =>
      statementStops s ++
        match settle i s with
        | (s, none) => bodyStops root (s :: before) rest
        | (s, some strip) =>
            let x : Stop := ⟨⟨before, s, rest⟩, judge i root strip before rest⟩
            x :: bodyStops root (x.done.here :: x.done.before) x.done.after
termination_by body => bodyWeight body
decreasing_by
  all_goals simp only [bodyWeight, Stop.done, bodyWeight_trim_after]; omega

/-- The stops inside of a statement. -/
def statementStops : Statement → List Stop
  | .block ⟨_, main, inverse, _, _, _, _⟩ => sectionStops main ++ sectionStops inverse
  | .decoratorBlock ⟨_, main, inverse, _, _, _, _⟩ => sectionStops main ++ sectionStops inverse
  | .inclusionBlock ⟨_, main, _, _, _⟩ => programStops false main
  | .mustache _ | .decorator _ | .inclusion _ | .content _ | .comment _ => []
termination_by s => statementWeight s
decreasing_by all_goals simp only [statementWeight]; omega

/-- The stops in a section, if it is there. -/
def sectionStops : Option Program → List Stop
  | none => []
  | some p => programStops false p
termination_by p => sectionWeight p
decreasing_by all_goals simp only [sectionWeight]; omega

end

end

/-- The stops of one run of the pass over a whole tree. -/
def Control.stops (c : Control) (p : Program) : List Stop :=
  programStops c.ignoreStandalone (!c.rootSeen) p

/-! ## The partials of the stops -/

theorem finish_ne_inclusion {s : Statement} (hs : ∀ node, s ≠ .inclusion node)
    (text : Option Content) (v : Verdict) : ∀ node, finish text v s ≠ .inclusion node := by
  cases s with
  | inclusion node => exact absurd rfl (hs node)
  | _ => exact fun _ h => Statement.noConfusion h

theorem finish_eq_inclusion (node : Inclusion) (text : Option Content) (v : Verdict) :
    ∃ node', finish text v (.inclusion node) = .inclusion node' := by
  cases text <;> exact ⟨_, rfl⟩

section

variable (i : Bool)

theorem settle_ne_inclusion {s : Statement} (hs : ∀ node, s ≠ .inclusion node) :
    ∀ node, (settle i s).1 ≠ .inclusion node := by
  match s with
  | .inclusion node => exact absurd rfl (hs node)
  | .mustache _ | .decorator _ | .content _ | .comment _ | .block ⟨_, _, _, _, _, _, _⟩
  | .decoratorBlock ⟨_, _, _, _, _, _, _⟩ | .inclusionBlock ⟨_, _, _, _, _⟩ =>
      exact fun _ h => Statement.noConfusion h

/-- The partials inside of a tag come from the stops there, and a tag that is a
partial comes from its own stop. -/
theorem inclusions_finish_settle (s : Statement) (text : Option Content) (v : Verdict)
    (hinner : (∀ node, s ≠ .inclusion node) →
      (statementStops i s).filterMap Stop.inclusion? = (settle i s).1.inclusions) :
    (finish text v (settle i s).1).inclusions =
      (statementStops i s).filterMap Stop.inclusion? ++
        (finish text v (settle i s).1).inclusion?.toList := by
  rcases s.inclusion_or_ne with ⟨node, rfl⟩ | hs
  · obtain ⟨node', h⟩ := finish_eq_inclusion node text v
    rw [settle, h, statementStops]
    rfl
  · have hs' := settle_ne_inclusion i hs
    rw [inclusions_finish v hs', hinner hs,
      Statement.inclusion?_eq_none (finish_ne_inclusion hs' text v), Option.toList_none,
      List.append_nil]

mutual

/-- The partials of a normalized program are those of the stops, as these leave
them. -/
theorem inclusions_program (root : Bool) : ∀ p : Program,
    (programStops i root p).filterMap Stop.inclusion? = (program i root p).inclusions
  | ⟨body, blockParams, chained, loc⟩ => by
      have h := inclusions_statements root body none .nil
      rw [onFirst_afterTag_none] at h
      rw [programStops]
      exact h

theorem inclusions_statements (root : Bool) :
    ∀ (body : List Statement) {before before' : List Statement} (tag : Option Verdict),
      Body.TrimsTo before before' →
      (bodyStops i root before' (onFirst (afterTag tag) body)).filterMap Stop.inclusion? =
        Body.inclusions
          (align tag (textAt before') (judgeAll i root before (settleAll i body)))
  | [], before, before', tag, hb => by
      show (bodyStops i root before' []).filterMap _ = _
      rw [bodyStops]
      rfl
  | s :: rest, before, before', tag, hb => by
      rcases s.content_or_ne with ⟨c, rfl⟩ | hs
      · have hrest := inclusions_statements root rest none
          (.cons (.content (trimsTo_afterTag tag c)) hb)
        rw [onFirst_afterTag_none] at hrest
        show (bodyStops i root before' (.content (afterTag tag c) :: rest)).filterMap _ = _
        rw [bodyStops, statementStops]
        exact hrest
      · obtain ⟨s', strip, hsettle, hs'⟩ := settle_of_ne i hs
        obtain ⟨v, hv⟩ : ∃ v, v = judge i root strip before' rest := ⟨_, rfl⟩
        have hjudge : judge i root strip before ((settleAll i rest).map Prod.fst) = v := by
          rw [hv, judge_of_trimsTo hb (Body.TrimsTo.refl rest),
            judge_of_trimsTo (Body.TrimsTo.refl before) (trimsTo_settleAll i rest)]
        have hrest := inclusions_statements root rest (some v)
          (.cons (trimsTo_finish (textAt before') v s')
            (hb.trans (trimsTo_onFirst (trimsTo_beforeTag (some v)) before')))
        have hone := inclusions_finish_settle i s (textAt before') v (inclusions_statement s)
        rw [hsettle] at hone
        rw [textAt_cons_of_ne (finish_of_ne hs' (textAt before') v)] at hrest
        rw [onFirst_cons_of_ne _ hs, bodyStops, settleAll, hsettle]
        simp only [judgeAll, Option.map_some, hjudge, align_cons_of_ne hs', ← hv]
        show (statementStops i s ++ ⟨⟨before', s', rest⟩, v⟩ ::
          bodyStops i root ((Spot.trim v ⟨before', s', rest⟩).here ::
            (Spot.trim v ⟨before', s', rest⟩).before)
            (Spot.trim v ⟨before', s', rest⟩).after).filterMap Stop.inclusion? =
          (finish (textAt before') v s').inclusions ++ _
        have hstop : Stop.inclusion? ⟨⟨before', s', rest⟩, v⟩ =
            (finish (textAt before') v s').inclusion? :=
          congrArg Statement.inclusion? (Spot.trim_here v ⟨before', s', rest⟩)
        rw [Spot.trim_here, Spot.trim_before, Spot.trim_after, hone, ← hrest,
          List.filterMap_append, List.filterMap_cons, List.append_assoc, hstop]
        cases (finish (textAt before') v s').inclusion? <;> rfl

theorem inclusions_statement : ∀ s : Statement, (∀ node, s ≠ .inclusion node) →
    (statementStops i s).filterMap Stop.inclusion? = (settle i s).1.inclusions
  | .inclusion node, hs => absurd rfl (hs node)
  | .mustache node, _ | .decorator node, _ | .comment node, _ | .content node, _ => by
      rw [statementStops]
      rfl
  | .block ⟨_, main, inverse, opening, middle, closing, _⟩, _
  | .decoratorBlock ⟨_, main, inverse, opening, middle, closing, _⟩, _ => by
      have h := inclusions_trimBlock i opening middle closing (bodyOf i main) (bodyOf i inverse)
      rw [statementStops, List.filterMap_append, inclusions_section main,
        inclusions_section inverse, ← h.1, ← h.2]
      rfl
  | .inclusionBlock ⟨_, main, opening, closing, _⟩, _ => by
      have h := inclusions_trimSections i opening {} closing (program i false main) none
      rw [statementStops, inclusions_program false main, ← h.1]
      rfl

theorem inclusions_section : ∀ p : Option Program,
    (sectionStops i p).filterMap Stop.inclusion? = Section.inclusions (bodyOf i p)
  | none => by
      rw [sectionStops]
      rfl
  | some p => by
      rw [sectionStops]
      exact inclusions_program false p

end

end

end Layout
end Stache
