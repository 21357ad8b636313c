import Stache.Layout.Normalize
import Stache.Traversal.Edit

/-!
# Whitespace control in place

The pass as an edit.  It enters and leaves the nodes of the tree the way an edit
does, keeps each of them and fills the slot of the root in the end, so it could
fail like one.

It goes through a list of statements once.  At each tag it trims the texts on
both sides right away, so that the list changes under it: a text that the next
step comes to may have lost its start, and one it has left may lose its end.
-/

namespace Stache
namespace Layout

/-! ## One tag in its list -/

/-- A list of statements, seen from one of them. -/
structure Spot where
  /-- The statements before it, the nearest first. -/
  before : List Statement
  here : Statement
  after : List Statement

/-- The text that a list starts with. -/
def textAt : List Statement → Option Content
  | .content c :: _ => some c
  | _ => none

/-- Trimming the padding of a text takes something away. -/
def losesPadding (c : Content) : Bool :=
  !c.leftStripped && c.value.trimPadding.length != c.value.length

/-- A partial with a new indent. -/
def setIndent (indent : Text) : Statement → Statement
  | .inclusion node => .inclusion { node with indent := indent }
  | s => s

/-- A change behind the opening tag of a block. -/
def onOpening (f : List Statement → List Statement) : Statement → Statement
  | .block b =>
      match b.program with
      | some p => .block { b with program := some (onBody f p) }
      | none => .block { b with inverse := b.inverse.map (onBody f) }
  | .decoratorBlock b =>
      match b.program with
      | some p => .decoratorBlock { b with program := some (onBody f p) }
      | none => .decoratorBlock { b with inverse := b.inverse.map (onBody f) }
  | .inclusionBlock b => .inclusionBlock { b with program := onBody f b.program }
  | s => s

/-- A change before the closing tag of a block. -/
def onClosing (f : List Statement → List Statement) : Statement → Statement
  | .block b =>
      match b.inverse with
      | some p => .block { b with inverse := some (onBody f p) }
      | none => .block { b with program := b.program.map (onBody f) }
  | .decoratorBlock b =>
      match b.inverse with
      | some p => .decoratorBlock { b with inverse := some (onBody f p) }
      | none => .decoratorBlock { b with program := b.program.map (onBody f) }
  | .inclusionBlock b => .inclusionBlock { b with program := onBody f b.program }
  | s => s

namespace Spot

/-- The trims at the markers of the tag. -/
def markers (v : Verdict) (x : Spot) : Spot :=
  let x := if v.allAfter then { x with after := onFirst Content.trimStart x.after } else x
  if v.allBefore then { x with before := onFirst Content.trimEnd x.before } else x

/-- The trims around a tag that stands alone as a whole.  A partial takes the
padding before it as its indent, if there is any to remove. -/
def inline (v : Verdict) (x : Spot) : Spot :=
  if v.inlineAlone then
    { before := onFirst Content.trimPadding x.before
      here :=
        match textAt x.before with
        | some c => if losesPadding c then setIndent c.written.padding x.here else x.here
        | none => x.here
      after := onFirst Content.trimLine x.after }
  else x

/-- The trims around an opening tag that stands alone. -/
def opening (v : Verdict) (x : Spot) : Spot :=
  if v.openAlone then
    { x with
      before := onFirst Content.trimPadding x.before
      here := onOpening (onFirst Content.trimLine) x.here }
  else x

/-- The trims around a closing tag that stands alone. -/
def closing (v : Verdict) (x : Spot) : Spot :=
  if v.closeAlone then
    { x with
      here := onClosing (onLast Content.trimPadding) x.here
      after := onFirst Content.trimLine x.after }
  else x

/-- All that a tag trims. -/
def trim (v : Verdict) (x : Spot) : Spot := closing v (opening v (inline v (markers v x)))

end Spot

/-! ## The size of what is left -/

mutual

/-- A bound on what the pass has to go through in a program. -/
def programWeight : Program → Nat
  | ⟨body, _, _, _⟩ => bodyWeight body + 1

/-- The same for a list of statements. -/
def bodyWeight : List Statement → Nat
  | [] => 0
  | s :: rest => statementWeight s + bodyWeight rest + 1

/-- The same for a statement. -/
def statementWeight : Statement → Nat
  | .block ⟨_, main, inverse, _, _, _, _⟩ => sectionWeight main + sectionWeight inverse + 1
  | .decoratorBlock ⟨_, main, inverse, _, _, _, _⟩ =>
      sectionWeight main + sectionWeight inverse + 1
  | .inclusionBlock ⟨_, main, _, _, _⟩ => programWeight main + 1
  | .mustache _ | .decorator _ | .inclusion _ | .content _ | .comment _ => 0

/-- The same for a section. -/
def sectionWeight : Option Program → Nat
  | none => 0
  | some p => programWeight p + 1

end

/-- A trim keeps the number of statements. -/
theorem bodyWeight_onFirst (f : Content → Content) (body : List Statement) :
    bodyWeight (onFirst f body) = bodyWeight body := by
  cases body with
  | nil => rfl
  | cons s rest => cases s <;> rfl

theorem bodyWeight_trim_after (v : Verdict) (x : Spot) :
    bodyWeight (x.trim v).after = bodyWeight x.after := by
  simp only [Spot.trim, Spot.closing, Spot.opening, Spot.inline, Spot.markers]
  split <;> split <;> split <;> split <;> split <;> simp only [bodyWeight_onFirst]

/-! ## The pass -/

/-- A piece of the pass: an edit in progress that carries the control along. -/
abbrev Controlled (α : Type) := StateT Control Editing α

namespace InPlace

/-- A piece of the pass inside of a node. -/
def within {α : Type} (node : Node) (inside : Controlled α) : Controlled α := fun c =>
  ExceptT.mk (Walk.visit node (inside c).run)

mutual

/-- A program, normalized.  The first one is a root. -/
def program : Program → Controlled (Occupant Program)
  | ⟨body, blockParams, chained, loc⟩ =>
      within (.program ⟨body, blockParams, chained, loc⟩) do
        let c ← get
        set { c with rootSeen := true }
        let body ← statements (!c.rootSeen) [] body
        return ⟨⟨body, blockParams, chained, loc⟩, loc, .keep⟩
termination_by p => programWeight p
decreasing_by simp only [programWeight]; omega

/-- The statements of a list that follows `before`, and those before it. -/
def statements (root : Bool) (before : List Statement) :
    List Statement → Controlled (List Statement)
  | [] => return before.reverse
  | s :: rest => do
      let (s, strip) ← statement s
      match strip with
      | none => statements root (s :: before) rest
      | some strip =>
          let v := judge (← get).ignoreStandalone root strip before rest
          let x := Spot.trim v ⟨before, s, rest⟩
          statements root (x.here :: x.before) x.after
termination_by body => bodyWeight body
decreasing_by
  all_goals simp only [bodyWeight, bodyWeight_trim_after]; omega

/-- A statement with its bodies normalized, and the strip flags it reports. -/
def statement : Statement → Controlled Settled
  | .mustache node =>
      within (.statement (.mustache node)) (return (.mustache node, some node.strip))
  | .decorator node =>
      within (.statement (.decorator node)) (return (.decorator node, some node.strip))
  | .inclusion node =>
      within (.statement (.inclusion node))
        (return (.inclusion node, some (inlineStrip node.strip)))
  | .comment node =>
      within (.statement (.comment node)) (return (.comment node, some (inlineStrip node.strip)))
  | .content node => within (.statement (.content node)) (return (.content node, none))
  | .block ⟨call, main, inverse, opening, middle, closing, loc⟩ =>
      within (.statement (.block ⟨call, main, inverse, opening, middle, closing, loc⟩)) do
        let main ← section? main
        let inverse ← section? inverse
        let (main, inverse, strip) :=
          trimBlock (← get).ignoreStandalone opening middle closing main inverse
        return (.block ⟨call, main, inverse, opening, middle, closing, loc⟩, some strip)
  | .decoratorBlock ⟨call, main, inverse, opening, middle, closing, loc⟩ =>
      within (.statement (.decoratorBlock ⟨call, main, inverse, opening, middle, closing, loc⟩)) do
        let main ← section? main
        let inverse ← section? inverse
        let (main, inverse, strip) :=
          trimBlock (← get).ignoreStandalone opening middle closing main inverse
        return (.decoratorBlock ⟨call, main, inverse, opening, middle, closing, loc⟩, some strip)
  | .inclusionBlock ⟨call, main, opening, closing, loc⟩ =>
      within (.statement (.inclusionBlock ⟨call, main, opening, closing, loc⟩)) do
        let main ← program main
        let (main, _, strip) :=
          trimSections (← get).ignoreStandalone opening {} closing main.node none
        return (.inclusionBlock ⟨call, main, opening, closing, loc⟩, some strip)
termination_by s => statementWeight s
decreasing_by all_goals simp only [statementWeight]; omega

/-- A section of a block, normalized.  What becomes of it is not asked. -/
def section? : Option Program → Controlled (Option Program)
  | none => return none
  | some p => return some (← program p).node
termination_by p => sectionWeight p
decreasing_by all_goals simp only [sectionWeight]; omega

end

end InPlace

/-- One run of the pass over a whole tree, with the control after it.  The root
must stay a program. -/
def Control.edit (c : Control) (p : Program) : Walked (Except EditError (Program × Control)) :=
  (ExceptT.run do
    let (o, c) ← InPlace.program p c
    let p ← ExceptT.mk (pure (Editing.fillRequired "root" .program Node.program? o))
    return (p, c) : Walk (Except EditError (Program × Control))).run

end Layout
end Stache
