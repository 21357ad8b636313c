import Stache.Proofs.Layout.Frame

/-!
# The partials of a tree

The partials of a template in the order in which they stand in it.  The main
section of a block comes before its else section.

A trim changes a text, so the partials stay as they are wherever a section is
trimmed.  Only a tag that is a partial itself takes an indent.
-/

namespace Stache

mutual

/-- The partials of a statement, in order. -/
def Statement.inclusions : Statement → List Inclusion
  | .inclusion node => [node]
  | .block ⟨_, main, inverse, _, _, _, _⟩ => Section.inclusions main ++ Section.inclusions inverse
  | .decoratorBlock ⟨_, main, inverse, _, _, _, _⟩ =>
      Section.inclusions main ++ Section.inclusions inverse
  | .inclusionBlock ⟨_, main, _, _, _⟩ => Program.inclusions main
  | .mustache _ | .decorator _ | .content _ | .comment _ => []

/-- The partials of a list of statements, in order. -/
def Body.inclusions : List Statement → List Inclusion
  | [] => []
  | s :: rest => Statement.inclusions s ++ Body.inclusions rest

/-- The partials of a section, if it is there. -/
def Section.inclusions : Option Program → List Inclusion
  | none => []
  | some p => Program.inclusions p

/-- The partials of a program, in order. -/
def Program.inclusions : Program → List Inclusion
  | ⟨body, _, _, _⟩ => Body.inclusions body

end

namespace Layout

/-! ## Trims of a section -/

/-- A change of the first text changes no partial. -/
theorem inclusions_onFirst (f : Content → Content) (body : List Statement) :
    Body.inclusions (onFirst f body) = Body.inclusions body := by
  cases body with
  | nil => rfl
  | cons s rest => cases s <;> rfl

/-- A change of the last text changes no partial. -/
theorem inclusions_onLast (f : Content → Content) (body : List Statement) :
    Body.inclusions (onLast f body) = Body.inclusions body := by
  induction body with
  | nil => rfl
  | cons s rest ih =>
      cases rest with
      | nil => cases s <;> rfl
      | cons t rest => rw [onLast_cons_cons, Body.inclusions, Body.inclusions, ih]

section

variable {f : List Statement → List Statement}

/-- What changes no partial of a body changes none of the section. -/
theorem inclusions_onBody (hf : ∀ body, Body.inclusions (f body) = Body.inclusions body)
    (p : Program) : (onBody f p).inclusions = p.inclusions := by
  cases p
  exact hf _

theorem inclusions_map_onBody (hf : ∀ body, Body.inclusions (f body) = Body.inclusions body)
    (p : Option Program) : Section.inclusions (p.map (onBody f)) = Section.inclusions p := by
  cases p with
  | none => rfl
  | some p => exact inclusions_onBody hf p

/-- What changes no partial of a body changes none of a chain. -/
theorem inclusions_onFirstSection
    (hf : ∀ body, Body.inclusions (f body) = Body.inclusions body) (p : Program) :
    (onFirstSection f p).inclusions = p.inclusions := by
  obtain ⟨body, blockParams, chained, loc⟩ := p
  cases chained with
  | false => exact hf body
  | true =>
      match body with
      | .block ⟨call, main, inverse, opening, middle, closing, loc⟩ :: rest
      | .decoratorBlock ⟨call, main, inverse, opening, middle, closing, loc⟩ :: rest =>
          exact congrArg (· ++ Section.inclusions inverse ++ Body.inclusions rest)
            (inclusions_map_onBody hf main)
      | [] | .mustache _ :: _ | .decorator _ :: _ | .inclusion _ :: _ | .inclusionBlock _ :: _
      | .content _ :: _ | .comment _ :: _ => rfl

mutual

/-- The last section of a chain may be changed like the first one. -/
theorem inclusions_onLastSection (hf : ∀ body, Body.inclusions (f body) = Body.inclusions body) :
    ∀ p : Program, (onLastSection f p).inclusions = p.inclusions
  | ⟨body, blockParams, chained, loc⟩ => by
      cases chained with
      | false => exact hf body
      | true => exact inclusions_onLastBlock hf body

theorem inclusions_onLastBlock (hf : ∀ body, Body.inclusions (f body) = Body.inclusions body) :
    ∀ body : List Statement, Body.inclusions (onLastBlock f body) = Body.inclusions body
  | [] => rfl
  | [s] => congrArg (· ++ []) (inclusions_onBlockSection hf s)
  | s :: t :: rest => congrArg (s.inclusions ++ ·) (inclusions_onLastBlock hf (t :: rest))

theorem inclusions_onBlockSection
    (hf : ∀ body, Body.inclusions (f body) = Body.inclusions body) :
    ∀ s : Statement, (onBlockSection f s).inclusions = s.inclusions
  | .block ⟨_, main, inverse, _, _, _, _⟩ | .decoratorBlock ⟨_, main, inverse, _, _, _, _⟩ =>
      congrArg (· ++ Section.inclusions inverse) (inclusions_onSection hf main)
  | .mustache _ | .decorator _ | .inclusion _ | .inclusionBlock _ | .content _ | .comment _ => rfl

theorem inclusions_onSection (hf : ∀ body, Body.inclusions (f body) = Body.inclusions body) :
    ∀ p : Option Program, Section.inclusions (onSection f p) = Section.inclusions p
  | none => rfl
  | some p => inclusions_onLastSection hf p

end

end

/-- A step on a condition changes no partial if the step does not. -/
theorem inclusions_ite {g : Program → Program} (hg : ∀ p, (g p).inclusions = p.inclusions)
    (b : Bool) (p : Program) : (if b then g p else p).inclusions = p.inclusions := by
  split
  · exact hg p
  · rfl

/-! ## The tags inside a block -/

/-- The tags around the main section change no partial in it. -/
theorem inclusions_trimMain (opening ender : Strip) (alone : Bool) (p : Program) :
    (trimMain opening ender alone p).inclusions = p.inclusions :=
  ((inclusions_ite (inclusions_onBody (inclusions_onLast _)) _ _).trans
    (inclusions_ite (inclusions_onBody (inclusions_onLast _)) _ _)).trans
    (inclusions_ite (inclusions_onBody (inclusions_onFirst _)) _ p)

/-- The tags around an else section change no partial in it. -/
theorem inclusions_trimElse (middle closing : Strip) (alone : Bool) (q : Program) :
    (trimElse middle closing alone q).inclusions = q.inclusions :=
  ((inclusions_ite (inclusions_onFirstSection (inclusions_onFirst _)) _ _).trans
    (inclusions_ite (inclusions_onLastSection (inclusions_onLast _)) _ _)).trans
    (inclusions_ite (inclusions_onFirstSection (inclusions_onFirst _)) _ q)

section

variable (i : Bool) (opening middle closing : Strip)

theorem inclusions_trimSections (p : Program) (inverse : Option Program) :
    (trimSections i opening middle closing p inverse).1.inclusions = p.inclusions ∧
      Section.inclusions (trimSections i opening middle closing p inverse).2.1 =
        Section.inclusions inverse := by
  cases inverse with
  | none => exact ⟨inclusions_trimMain opening closing false p, rfl⟩
  | some q =>
      exact ⟨inclusions_trimMain opening middle _ p, inclusions_trimElse middle closing _ q⟩

/-- The tags inside a block change no partial in it. -/
theorem inclusions_trimBlock (main inverse : Option Program) :
    Section.inclusions (trimBlock i opening middle closing main inverse).1 =
        Section.inclusions main ∧
      Section.inclusions (trimBlock i opening middle closing main inverse).2.1 =
        Section.inclusions inverse := by
  cases main with
  | some p => exact inclusions_trimSections i opening middle closing p inverse
  | none =>
      cases inverse with
      | none => exact ⟨rfl, rfl⟩
      | some q => exact ⟨rfl, (inclusions_trimSections i opening middle closing q none).1⟩

end

/-! ## The tags around a block -/

section

variable (v : Verdict)

theorem inclusions_openSection (main inverse : Option Program) :
    Section.inclusions (openSection main inverse).1 = Section.inclusions main ∧
      Section.inclusions (openSection main inverse).2 = Section.inclusions inverse := by
  cases main with
  | some p => exact ⟨inclusions_onBody (inclusions_onFirst _) p, rfl⟩
  | none => exact ⟨rfl, inclusions_map_onBody (inclusions_onFirst _) inverse⟩

theorem inclusions_closeSection (main inverse : Option Program) :
    Section.inclusions (closeSection main inverse).1 = Section.inclusions main ∧
      Section.inclusions (closeSection main inverse).2 = Section.inclusions inverse := by
  cases inverse with
  | some p => exact ⟨rfl, inclusions_onBody (inclusions_onLast _) p⟩
  | none => exact ⟨inclusions_map_onBody (inclusions_onLast _) main, rfl⟩

/-- A verdict changes no partial inside the block that it is about. -/
theorem inclusions_insideSections (main inverse : Option Program) :
    Section.inclusions (insideSections v main inverse).1 = Section.inclusions main ∧
      Section.inclusions (insideSections v main inverse).2 = Section.inclusions inverse := by
  have hopen := inclusions_openSection main inverse
  have hclose := inclusions_closeSection main inverse
  have hboth := inclusions_closeSection (openSection main inverse).1 (openSection main inverse).2
  unfold insideSections
  cases v.openAlone <;> cases v.closeAlone
  · exact ⟨rfl, rfl⟩
  · exact hclose
  · exact hopen
  · exact ⟨hboth.1.trans hopen.1, hboth.2.trans hopen.2⟩

theorem inclusions_insideBody (p : Program) : (insideBody v p).inclusions = p.inclusions :=
  (inclusions_ite (inclusions_onBody (inclusions_onLast _)) _ _).trans
    (inclusions_ite (inclusions_onBody (inclusions_onFirst _)) _ p)

/-- A tag that is no partial keeps the partials inside of it. -/
theorem inclusions_finish {s : Statement} (hs : ∀ node, s ≠ .inclusion node)
    (text : Option Content) : (finish text v s).inclusions = s.inclusions := by
  match s with
  | .inclusion node => exact absurd rfl (hs node)
  | .block ⟨_, main, inverse, _, _, _, _⟩ | .decoratorBlock ⟨_, main, inverse, _, _, _, _⟩ =>
      have h := inclusions_insideSections v main inverse
      exact congrArg₂ (· ++ ·) h.1 h.2
  | .inclusionBlock ⟨_, main, _, _, _⟩ => exact inclusions_insideBody v main
  | .mustache _ | .decorator _ | .content _ | .comment _ => rfl

end

end Layout
end Stache
