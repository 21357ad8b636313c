import Stache.Proofs.Layout.Frame
import Stache.Proofs.Tree.Relocated

/-!
# Whitespace control and places

Whitespace control looks at texts and markers and never at a place: the normalized form of a
relocated tree is the relocated normalized form (`normalize_relocated`).  Each step of the pass
commutes with relocation, and the pass is put together from its steps by recursion over the
tree.
-/

namespace Stache

variable (f : Location → Location)

/-- The text in another place. -/
def Content.relocated (c : Content) : Content := { c with loc := f c.loc }

/-- A trim at the start of a text leaves its place alone. -/
theorem Content.trimStart_relocated (c : Content) :
    (c.relocated f).trimStart = c.trimStart.relocated f := rfl

/-- A trim at the end of a text leaves its place alone. -/
theorem Content.trimEnd_relocated (c : Content) :
    (c.relocated f).trimEnd = c.trimEnd.relocated f := rfl

/-- The trim of a line at the start looks at the text only. -/
theorem Content.trimLine_relocated (c : Content) :
    (c.relocated f).trimLine = c.trimLine.relocated f := by
  unfold trimLine
  show (if c.rightStripped then _ else _) = _
  split <;> rfl

/-- The trim of padding at the end looks at the text only. -/
theorem Content.trimPadding_relocated (c : Content) :
    (c.relocated f).trimPadding = c.trimPadding.relocated f := by
  unfold trimPadding
  show (if c.leftStripped then _ else _) = _
  split <;> rfl

/-- The statements of a list are relocated one by one, so their order does not matter. -/
theorem Body.relocated_reverse (body : List Statement) :
    (Body.relocated f body).reverse = Body.relocated f body.reverse := by
  rw [relocated_eq_map, relocated_eq_map, List.map_reverse]

/-- No statement is lost, and none is added. -/
theorem Body.isEmpty_relocated (body : List Statement) :
    (Body.relocated f body).isEmpty = body.isEmpty := by
  cases body <;> rfl

namespace Layout

/-- A change of statements that does not look at places. -/
def Blind (g : List Statement → List Statement) : Prop :=
  ∀ body, g (Body.relocated f body) = Body.relocated f (g body)

variable {f}

/-! ## Trims of a section -/

section

variable {g : Content → Content} (hg : ∀ c : Content, g (c.relocated f) = (g c).relocated f)

include hg

/-- What is blind on texts is blind on the first text of a list. -/
theorem blind_onFirst : Blind f (onFirst g) := by
  intro body
  cases body with
  | nil => rfl
  | cons s rest =>
      cases s with
      | content c =>
          exact congrArg (fun c => .content c :: Body.relocated f rest) (hg c)
      | mustache _ | decorator _ | inclusion _ | block _ | decoratorBlock _ | inclusionBlock _
      | comment _ => rfl

/-- What is blind on texts is blind on the last text of a list. -/
theorem blind_onLast : Blind f (onLast g)
  | [] => rfl
  | [.content c] => congrArg (fun c => [Statement.content c]) (hg c)
  | [.mustache _] | [.decorator _] | [.block _] | [.decoratorBlock _] | [.inclusion _]
  | [.inclusionBlock _] | [.comment _] => rfl
  | s :: t :: rest => by
      rw [onLast_cons_cons, Body.relocated, Body.relocated, onLast_cons_cons, ← Body.relocated,
        blind_onLast (t :: rest)]
      rfl

end

section

variable {g : List Statement → List Statement}

/-- A blind change of a body commutes with relocation of the section. -/
theorem relocated_onBody (hg : Blind f g) (p : Program) :
    onBody g (p.relocated f) = (onBody g p).relocated f := by
  obtain ⟨body, names, chained, loc⟩ := p
  exact congrArg (Program.mk · names chained (loc.map f)) (hg body)

theorem relocated_map_onBody (hg : Blind f g) (p : Option Program) :
    (Section.relocated f p).map (onBody g) = Section.relocated f (p.map (onBody g)) := by
  cases p with
  | none => rfl
  | some p => exact congrArg some (relocated_onBody hg p)

/-- The first section of a chain is found without a look at places. -/
theorem relocated_onFirstSection (hg : Blind f g) (p : Program) :
    onFirstSection g (p.relocated f) = (onFirstSection g p).relocated f := by
  obtain ⟨body, names, chained, loc⟩ := p
  cases chained with
  | false => exact congrArg (Program.mk · names false (loc.map f)) (hg body)
  | true =>
      match body with
      | .block ⟨call, main, inverse, opening, middle, closing, at'⟩ :: rest =>
          exact congrArg (fun main => Program.mk (.block ⟨call.relocated f, main,
            Section.relocated f inverse, opening, middle, closing, f at'⟩ :: Body.relocated f rest)
            names true (loc.map f)) (relocated_map_onBody hg main)
      | .decoratorBlock ⟨call, main, inverse, opening, middle, closing, at'⟩ :: rest =>
          exact congrArg (fun main => Program.mk (.decoratorBlock ⟨call.relocated f, main,
            Section.relocated f inverse, opening, middle, closing, f at'⟩ :: Body.relocated f rest)
            names true (loc.map f)) (relocated_map_onBody hg main)
      | [] | .mustache _ :: _ | .decorator _ :: _ | .inclusion _ :: _ | .inclusionBlock _ :: _
      | .content _ :: _ | .comment _ :: _ => rfl

mutual

/-- The last section of a chain is found without a look at places. -/
theorem relocated_onLastSection (hg : Blind f g) : ∀ p : Program,
    onLastSection g (p.relocated f) = (onLastSection g p).relocated f
  | ⟨body, names, chained, loc⟩ => by
      cases chained with
      | false => exact congrArg (Program.mk · names false (loc.map f)) (hg body)
      | true => exact congrArg (Program.mk · names true (loc.map f)) (relocated_onLastBlock hg body)

theorem relocated_onLastBlock (hg : Blind f g) : ∀ body : List Statement,
    onLastBlock g (Body.relocated f body) = Body.relocated f (onLastBlock g body)
  | [] => rfl
  | [s] => congrArg (fun s => [s]) (relocated_onBlockSection hg s)
  | s :: t :: rest => congrArg (s.relocated f :: ·) (relocated_onLastBlock hg (t :: rest))

theorem relocated_onBlockSection (hg : Blind f g) : ∀ s : Statement,
    onBlockSection g (s.relocated f) = (onBlockSection g s).relocated f
  | .block ⟨_, main, _, _, _, _, _⟩ =>
      congrArg (fun main => Statement.block ⟨_, main, _, _, _, _, _⟩) (relocated_onSection hg main)
  | .decoratorBlock ⟨_, main, _, _, _, _, _⟩ =>
      congrArg (fun main => Statement.decoratorBlock ⟨_, main, _, _, _, _, _⟩)
        (relocated_onSection hg main)
  | .mustache _ | .decorator _ | .inclusion _ | .inclusionBlock _ | .content _ | .comment _ => rfl

theorem relocated_onSection (hg : Blind f g) : ∀ p : Option Program,
    onSection g (Section.relocated f p) = Section.relocated f (onSection g p)
  | none => rfl
  | some p => congrArg some (relocated_onLastSection hg p)

end

end

/-- A trim that is made on a condition commutes with relocation if the trim does. -/
theorem relocated_ite {g : Program → Program}
    (hg : ∀ p : Program, g (p.relocated f) = (g p).relocated f) (b : Bool) (p : Program) :
    (if b then g (p.relocated f) else p.relocated f) = (if b then g p else p).relocated f := by
  split
  · exact hg p
  · rfl

/-! ## Lines -/

/-- Whether a line ends in front of a statement is read off texts. -/
theorem lineEnds_relocated (root : Bool) (before : List Statement) :
    lineEnds root (Body.relocated f before) = lineEnds root before := by
  cases before with
  | nil => rfl
  | cons s more =>
      cases s with
      | content c =>
          show (c.written.endsLine || root && (Body.relocated f more).isEmpty && _) = _
          rw [Body.isEmpty_relocated]
          rfl
      | _ node => cases node; rfl

/-- Whether a line starts behind a statement is read off texts. -/
theorem lineStarts_relocated (root : Bool) (after : List Statement) :
    lineStarts root (Body.relocated f after) = lineStarts root after := by
  cases after with
  | nil => rfl
  | cons s more =>
      cases s with
      | content c =>
          show (c.written.startsLine || root && (Body.relocated f more).isEmpty && _) = _
          rw [Body.isEmpty_relocated]
          rfl
      | _ node => cases node; rfl

/-- The first section of a chain is that of the relocated chain, relocated. -/
theorem firstSection?_relocated (p : Program) :
    firstSection? (p.relocated f) = (firstSection? p).map (Body.relocated f) := by
  obtain ⟨body, names, chained, loc⟩ := p
  cases chained with
  | false => rfl
  | true =>
      match body with
      | .block ⟨_, main, _, _, _, _, _⟩ :: _ | .decoratorBlock ⟨_, main, _, _, _, _, _⟩ :: _ =>
          cases main with
          | none => rfl
          | some p => cases p; rfl
      | [] | .mustache _ :: _ | .decorator _ :: _ | .inclusion _ :: _ | .inclusionBlock _ :: _
      | .content _ :: _ | .comment _ :: _ => rfl

/-! ## The tags inside a block -/

/-- The tags at both ends of the main section trim it the same at any place. -/
theorem relocated_trimMain (opening ender : Strip) (alone : Bool) (p : Program) :
    trimMain opening ender alone (p.relocated f) =
      (trimMain opening ender alone p).relocated f := by
  rw [trimMain, trimMain,
    relocated_ite (relocated_onBody (blind_onFirst (Content.trimStart_relocated f))),
    relocated_ite (relocated_onBody (blind_onLast (Content.trimEnd_relocated f))),
    relocated_ite (relocated_onBody (blind_onLast (Content.trimPadding_relocated f)))]

/-- The tags at both ends of an else section trim it the same at any place. -/
theorem relocated_trimElse (middle closing : Strip) (alone : Bool) (q : Program) :
    trimElse middle closing alone (q.relocated f) =
      (trimElse middle closing alone q).relocated f := by
  rw [trimElse, trimElse,
    relocated_ite (relocated_onFirstSection (blind_onFirst (Content.trimStart_relocated f))),
    relocated_ite (relocated_onLastSection (blind_onLast (Content.trimEnd_relocated f))),
    relocated_ite (relocated_onFirstSection (blind_onFirst (Content.trimLine_relocated f)))]

/-- Whether an else tag stands alone on its line does not depend on places. -/
theorem elseAlone_relocated (p q : Program) :
    elseAlone (p.relocated f) (q.relocated f) = elseAlone p q := by
  rw [elseAlone, Program.body_relocated, Body.relocated_reverse, lineEnds_relocated,
    firstSection?_relocated, Option.any_map]
  congr 2
  funext body
  exact lineStarts_relocated false body

/-- What a block tells the tags around it does not depend on places. -/
theorem report_relocated (opening closing : Strip) (p : Program) (inverse : Option Program) :
    report opening closing (p.relocated f) (Section.relocated f inverse) =
      report opening closing p inverse := by
  have hlast : ((Section.relocated f inverse).bind firstSection?).getD (Body.relocated f p.body) =
      Body.relocated f ((inverse.bind firstSection?).getD p.body) := by
    cases inverse with
    | none => rfl
    | some q =>
        show (firstSection? (q.relocated f)).getD _ = Body.relocated f ((firstSection? q).getD _)
        rw [firstSection?_relocated]
        cases firstSection? q <;> rfl
  rw [report, report, Program.body_relocated, hlast, Body.relocated_reverse, lineEnds_relocated,
    lineStarts_relocated]

section

variable (i : Bool) (opening middle closing : Strip)

/-- The tags inside a block with a main section trim both sections the same at any place. -/
theorem relocated_trimSections (p : Program) (inverse : Option Program) :
    trimSections i opening middle closing (p.relocated f) (Section.relocated f inverse) =
      ((trimSections i opening middle closing p inverse).1.relocated f,
        Section.relocated f (trimSections i opening middle closing p inverse).2.1,
        (trimSections i opening middle closing p inverse).2.2) := by
  have hreport := report_relocated (f := f) opening closing p inverse
  cases inverse with
  | none =>
      show (trimMain opening closing false (p.relocated f), none, report opening closing _ _) = _
      rw [hreport, relocated_trimMain]
      rfl
  | some q =>
      show (trimMain opening middle (!i && elseAlone (p.relocated f) (q.relocated f)) _,
        some (trimElse middle closing (!i && elseAlone (p.relocated f) (q.relocated f)) _),
        report opening closing _ _) = _
      rw [hreport, elseAlone_relocated, relocated_trimMain, relocated_trimElse]
      rfl

/-- The tags inside a block trim its sections the same at any place. -/
theorem relocated_trimBlock (main inverse : Option Program) :
    trimBlock i opening middle closing (Section.relocated f main) (Section.relocated f inverse) =
      (Section.relocated f (trimBlock i opening middle closing main inverse).1,
        Section.relocated f (trimBlock i opening middle closing main inverse).2.1,
        (trimBlock i opening middle closing main inverse).2.2) := by
  cases main with
  | some p =>
      have h := relocated_trimSections (f := f) i opening middle closing p inverse
      rw [Section.relocated, trimBlock, h]
      rfl
  | none =>
      cases inverse with
      | none => rfl
      | some q =>
          have h := relocated_trimSections (f := f) i opening middle closing q none
          rw [Section.relocated] at h
          rw [Section.relocated, Section.relocated, trimBlock, h]
          rfl

end

/-! ## The tags around a block -/

section

variable (v : Verdict)

/-- The section behind an opening tag is found without a look at places. -/
theorem relocated_openSection (main inverse : Option Program) :
    openSection (Section.relocated f main) (Section.relocated f inverse) =
      (Section.relocated f (openSection main inverse).1,
        Section.relocated f (openSection main inverse).2) := by
  have hblind : Blind f (onFirst Content.trimLine) := blind_onFirst (Content.trimLine_relocated f)
  cases main with
  | some p => exact congrArg (fun p => (some p, _)) (relocated_onBody hblind p)
  | none => exact congrArg (Prod.mk none) (relocated_map_onBody hblind inverse)

/-- The section in front of a closing tag is found without a look at places. -/
theorem relocated_closeSection (main inverse : Option Program) :
    closeSection (Section.relocated f main) (Section.relocated f inverse) =
      (Section.relocated f (closeSection main inverse).1,
        Section.relocated f (closeSection main inverse).2) := by
  have hblind : Blind f (onLast Content.trimPadding) :=
    blind_onLast (Content.trimPadding_relocated f)
  cases inverse with
  | some p => exact congrArg (fun p => (_, some p)) (relocated_onBody hblind p)
  | none => exact congrArg (·, none) (relocated_map_onBody hblind main)

/-- What a verdict does inside a block it does at any place. -/
theorem relocated_insideSections (main inverse : Option Program) :
    insideSections v (Section.relocated f main) (Section.relocated f inverse) =
      (Section.relocated f (insideSections v main inverse).1,
        Section.relocated f (insideSections v main inverse).2) := by
  unfold insideSections
  cases v.openAlone <;> cases v.closeAlone
  · rfl
  · exact relocated_closeSection main inverse
  · exact relocated_openSection main inverse
  · show closeSection (openSection _ _).1 (openSection _ _).2 = _
    rw [relocated_openSection]
    exact relocated_closeSection _ _

theorem relocated_insideBody (p : Program) :
    insideBody v (p.relocated f) = (insideBody v p).relocated f := by
  rw [insideBody, insideBody,
    relocated_ite (relocated_onBody (blind_onFirst (Content.trimLine_relocated f))),
    relocated_ite (relocated_onBody (blind_onLast (Content.trimPadding_relocated f)))]

/-- The indent of a partial is read off the text in front of it, wherever that stands. -/
theorem indentAfter_relocated (c : Content) (indent : Text) :
    indentAfter v (c.relocated f) indent = indentAfter v c indent := by
  unfold indentAfter
  cases v.allBefore <;> rfl

/-- A statement is finished by its verdict the same at any place. -/
theorem relocated_finish (text : Option Content) (s : Statement) :
    finish (text.map (Content.relocated f)) v (s.relocated f) =
      (finish text v s).relocated f := by
  match s with
  | .inclusion ⟨call, indent, strip, loc⟩ =>
      cases text with
      | none => rfl
      | some c =>
          exact congrArg (fun indent => Statement.inclusion ⟨_, indent, strip, _⟩)
            (indentAfter_relocated v c indent)
  | .block ⟨call, main, inverse, opening, middle, closing, loc⟩ =>
      exact congrArg (fun both => Statement.block ⟨_, both.1, both.2, opening, middle, closing, _⟩)
        (relocated_insideSections v main inverse)
  | .decoratorBlock ⟨call, main, inverse, opening, middle, closing, loc⟩ =>
      exact congrArg
        (fun both => Statement.decoratorBlock ⟨_, both.1, both.2, opening, middle, closing, _⟩)
        (relocated_insideSections v main inverse)
  | .inclusionBlock ⟨call, main, opening, closing, loc⟩ =>
      exact congrArg (fun p => Statement.inclusionBlock ⟨_, p, opening, closing, _⟩)
        (relocated_insideBody v main)
  | .mustache _ | .decorator _ | .content _ | .comment _ => rfl

/-- A text behind a tag is trimmed the same at any place. -/
theorem relocated_afterTag (tag : Option Verdict) (c : Content) :
    afterTag tag (c.relocated f) = (afterTag tag c).relocated f := by
  cases tag with
  | none => rfl
  | some v =>
      rw [afterTag, afterTag]
      cases v.allAfter <;> cases v.lineAfter
      · rfl
      · exact Content.trimLine_relocated f c
      · rfl
      · exact Content.trimLine_relocated f c.trimStart

/-- A text in front of a tag is trimmed the same at any place. -/
theorem relocated_beforeTag (tag : Option Verdict) (c : Content) :
    beforeTag tag (c.relocated f) = (beforeTag tag c).relocated f := by
  cases tag with
  | none => rfl
  | some v =>
      rw [beforeTag, beforeTag]
      cases v.allBefore <;> cases v.lineBefore
      · rfl
      · exact Content.trimPadding_relocated f c
      · rfl
      · exact Content.trimPadding_relocated f c.trimEnd

end

/-! ## Verdicts -/

/-- The statements of some pairs with other places. -/
abbrev relocatedPairs {α : Type} (f : Location → Location) (pairs : List (Statement × α)) :
    List (Statement × α) :=
  pairs.map (Prod.map (Statement.relocated f) id)

theorem relocatedPairs_fst {α : Type} (pairs : List (Statement × α)) :
    (relocatedPairs f pairs).map Prod.fst = Body.relocated f (pairs.map Prod.fst) := by
  rw [Body.relocated_eq_map, List.map_map, List.map_map]
  rfl

/-- **A verdict does not depend on places.**  It looks at markers and at the texts around
a tag. -/
theorem judge_relocated (i root : Bool) (strip : Strip) (before after : List Statement) :
    judge i root strip (Body.relocated f before) (Body.relocated f after) =
      judge i root strip before after := by
  rw [judge, judge, lineEnds_relocated, lineStarts_relocated]

/-- The statements of a list are judged the same at any place. -/
theorem relocated_judgeAll (i root : Bool) (settled : List Settled) :
    ∀ before, judgeAll i root (Body.relocated f before) (relocatedPairs f settled) =
      relocatedPairs f (judgeAll i root before settled) := by
  induction settled with
  | nil => exact fun _ => rfl
  | cons first rest ih =>
      intro before
      obtain ⟨s, strip⟩ := first
      show (s.relocated f, strip.map fun g =>
        judge i root g (Body.relocated f before) ((relocatedPairs f rest).map Prod.fst)) ::
          judgeAll i root (Body.relocated f (s :: before)) (relocatedPairs f rest) = _
      simp only [relocatedPairs_fst, judge_relocated, ih]
      rfl

/-! ## Trims between neighbours -/

theorem relocated_finishWith (text : Option Content) (s : Statement) (v : Option Verdict) :
    finishWith (text.map (Content.relocated f)) (s.relocated f) v =
      (finishWith text s v).relocated f := by
  cases v with
  | none => rfl
  | some v => exact relocated_finish v text s

/-- The texts between the tags of a list are trimmed the same at any place. -/
theorem relocated_align (judged : List Judged) :
    ∀ tag text, align tag (text.map (Content.relocated f)) (relocatedPairs f judged) =
      Body.relocated f (align tag text judged) := by
  induction judged with
  | nil => exact fun _ _ => rfl
  | cons first rest ih =>
      intro tag text
      obtain ⟨s, verdict⟩ := first
      have hhead : (relocatedPairs f rest).head?.bind Prod.snd = rest.head?.bind Prod.snd := by
        cases rest <;> rfl
      rcases s.content_or_ne with ⟨c, rfl⟩ | hs
      · show .content (beforeTag ((relocatedPairs f rest).head?.bind Prod.snd)
            (afterTag tag (c.relocated f))) ::
          align none (some (afterTag tag (c.relocated f))) (relocatedPairs f rest) = _
        rw [hhead, relocated_afterTag, relocated_beforeTag]
        exact congrArg (_ :: ·) (ih none (some (afterTag tag c)))
      · have hs' : ∀ c, s.relocated f ≠ .content c := by
          cases s with
          | content c => exact absurd rfl (hs c)
          | _ node => cases node; exact fun _ h => Statement.noConfusion h
        rw [align_cons_of_ne hs, Body.relocated, ← ih verdict none, ← relocated_finishWith]
        exact align_cons_of_ne hs' tag _ verdict _

/-! ## The pass -/

mutual

/-- The pass commutes with relocation of a program. -/
theorem relocated_program (i root : Bool) : ∀ p : Program,
    program i root (p.relocated f) = (program i root p).relocated f
  | ⟨body, names, chained, loc⟩ => by
      show Program.mk (align none none (judgeAll i root [] (settleAll i (Body.relocated f body))))
        names chained (loc.map f) = _
      rw [relocated_settleAll i body]
      have hjudged := relocated_judgeAll (f := f) i root (settleAll i body) []
      have haligned := relocated_align (f := f) (judgeAll i root [] (settleAll i body)) none none
      rw [Body.relocated] at hjudged
      rw [hjudged]
      exact congrArg (Program.mk · names chained (loc.map f)) haligned

/-- The pass commutes with relocation inside each statement of a list. -/
theorem relocated_settleAll (i : Bool) : ∀ body : List Statement,
    settleAll i (Body.relocated f body) = relocatedPairs f (settleAll i body)
  | [] => rfl
  | s :: rest => by
      show settle i (s.relocated f) :: settleAll i (Body.relocated f rest) = _
      rw [relocated_settle i s, relocated_settleAll i rest]
      rfl

/-- The pass commutes with relocation inside a statement, and reports the same about it. -/
theorem relocated_settle (i : Bool) : ∀ s : Statement,
    settle i (s.relocated f) = Prod.map (Statement.relocated f) id (settle i s)
  | .mustache _ | .decorator _ | .inclusion _ | .content _ | .comment _ => rfl
  | .block ⟨call, main, inverse, opening, middle, closing, loc⟩ => by
      have h := relocated_trimBlock (f := f) i opening middle closing (bodyOf i main)
        (bodyOf i inverse)
      rw [← relocated_bodyOf i main, ← relocated_bodyOf i inverse] at h
      exact congrArg (fun trimmed => (Statement.block ⟨_, trimmed.1, trimmed.2.1, opening, middle,
        closing, _⟩, some trimmed.2.2)) h
  | .decoratorBlock ⟨call, main, inverse, opening, middle, closing, loc⟩ => by
      have h := relocated_trimBlock (f := f) i opening middle closing (bodyOf i main)
        (bodyOf i inverse)
      rw [← relocated_bodyOf i main, ← relocated_bodyOf i inverse] at h
      exact congrArg (fun trimmed => (Statement.decoratorBlock ⟨_, trimmed.1, trimmed.2.1, opening,
        middle, closing, _⟩, some trimmed.2.2)) h
  | .inclusionBlock ⟨call, main, opening, closing, loc⟩ => by
      have h := relocated_trimSections (f := f) i opening {} closing (program i false main) none
      rw [← relocated_program i false main] at h
      exact congrArg (fun trimmed => (Statement.inclusionBlock ⟨_, trimmed.1, opening, closing, _⟩,
        some trimmed.2.2)) h

/-- The pass commutes with relocation of a section. -/
theorem relocated_bodyOf (i : Bool) : ∀ p : Option Program,
    bodyOf i (Section.relocated f p) = Section.relocated f (bodyOf i p)
  | none => rfl
  | some p => congrArg some (relocated_program i false p)

end

end Layout

/-- **The normalized form of a relocated tree is the relocated normalized form.** -/
theorem normalize_relocated (o : Options) (p : Program) :
    normalize o (p.relocated f) = (normalize o p).relocated f :=
  Layout.relocated_program o.ignoreStandalone true p

end Stache
