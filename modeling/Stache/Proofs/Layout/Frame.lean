import Stache.Layout.Normalize
import Stache.Proofs.Layout.Content
import Stache.Proofs.Tree.Alike

/-!
# What whitespace control touches

Each step of the pass changes a tree only by trims of its texts and by the
indents of its partials.  The steps are small: a change of the first or the
last text of a section, of the sections of a chain, of the neighbours of a tag.
For each of them there is one lemma here, and the pass is put together from
them by recursion over the tree.
-/

namespace Stache

/-- Trims of its texts lead from one tree to another. -/
abbrev Program.TrimsTo : Program → Program → Prop := Program.Alike Content.TrimsTo

/-- Trims of their texts lead from some statements to others. -/
abbrev Body.TrimsTo : List Statement → List Statement → Prop := Body.Alike Content.TrimsTo

/-- Trims of its texts lead from one section to another. -/
abbrev Section.TrimsTo : Option Program → Option Program → Prop := Section.Alike Content.TrimsTo

/-- Trims of its texts lead from one statement to another. -/
abbrev Statement.TrimsTo : Statement → Statement → Prop := Statement.Alike Content.TrimsTo

/-- No trim at all leads from a tree to itself. -/
theorem Program.TrimsTo.refl (p : Program) : p.TrimsTo p :=
  Program.Alike.refl (fun _ => .refl) p

/-- Trims made one after another are trims. -/
theorem Program.TrimsTo.trans {p q r : Program} (hpq : p.TrimsTo q) (hqr : q.TrimsTo r) :
    p.TrimsTo r :=
  Program.Alike.trans (R := Content.TrimsTo) (S := Content.TrimsTo) (fun _ _ _ => .trans) hpq hqr

theorem Body.TrimsTo.refl (body : List Statement) : Body.TrimsTo body body :=
  Body.Alike.refl (fun _ => .refl) body

theorem Section.TrimsTo.refl (p : Option Program) : Section.TrimsTo p p :=
  Section.Alike.refl (fun _ => .refl) p

theorem Section.TrimsTo.trans {p q r : Option Program} (hpq : Section.TrimsTo p q)
    (hqr : Section.TrimsTo q r) : Section.TrimsTo p r :=
  Section.Alike.trans (R := Content.TrimsTo) (S := Content.TrimsTo) (fun _ _ _ => .trans) hpq hqr

theorem Statement.TrimsTo.refl (s : Statement) : s.TrimsTo s :=
  Statement.Alike.refl (fun _ => .refl) s

theorem Statement.TrimsTo.trans {s t u : Statement} (hst : s.TrimsTo t) (htu : t.TrimsTo u) :
    s.TrimsTo u :=
  Statement.Alike.trans (R := Content.TrimsTo) (S := Content.TrimsTo) (fun _ _ _ => .trans) hst htu

theorem Body.TrimsTo.trans {body body' body'' : List Statement} (h : Body.TrimsTo body body')
    (h' : Body.TrimsTo body' body'') : Body.TrimsTo body body'' :=
  Body.Alike.trans (R := Content.TrimsTo) (S := Content.TrimsTo) (fun _ _ _ => .trans) h h'

/-- A statement is a text or a tag, and most steps of the pass depend on nothing else. -/
theorem Statement.content_or_ne (s : Statement) :
    (∃ c, s = .content c) ∨ ∀ c, s ≠ .content c := by
  cases s with
  | content c => exact .inl ⟨c, rfl⟩
  | _ => exact .inr (fun _ h => Statement.noConfusion h)

namespace Layout

/-! ## The ends of a list -/

/-- A list that starts with a tag has no first text. -/
theorem onFirst_cons_of_ne (f : Content → Content) {s : Statement} (hs : ∀ c, s ≠ .content c)
    (rest : List Statement) : onFirst f (s :: rest) = s :: rest := by
  cases s with
  | content c => exact absurd rfl (hs c)
  | _ => rfl

/-- A tag alone is no last text. -/
theorem onLast_singleton_of_ne (f : Content → Content) {s : Statement}
    (hs : ∀ c, s ≠ .content c) : onLast f [s] = [s] := by
  cases s with
  | content c => exact absurd rfl (hs c)
  | _ => rfl

/-- A condition on the change of the first text is one on the text itself. -/
theorem onFirst_ite (b : Bool) (f : Content → Content) (body : List Statement) :
    (if b then onFirst f body else body) = onFirst (fun c => if b then f c else c) body := by
  cases b with
  | true => rfl
  | false =>
      cases body with
      | nil => rfl
      | cons s rest => cases s <;> rfl

/-- A last text that stays as it is leaves the list as it is. -/
theorem onLast_id : ∀ body : List Statement, onLast (fun c => c) body = body
  | [] => rfl
  | [s] => by cases s <;> rfl
  | s :: s' :: rest => by rw [onLast_cons_cons, onLast_id]

/-- A condition on the change of the last text is one on the text itself. -/
theorem onLast_ite (b : Bool) (f : Content → Content) (body : List Statement) :
    (if b then onLast f body else body) = onLast (fun c => if b then f c else c) body := by
  cases b with
  | true => rfl
  | false => exact (onLast_id body).symm

section

variable {f : Content → Content}

/-- A trim of the first text trims the list. -/
theorem trimsTo_onFirst (hf : ∀ c : Content, c.TrimsTo (f c)) (body : List Statement) :
    Body.TrimsTo body (onFirst f body) := by
  cases body with
  | nil => exact .nil
  | cons s rest =>
      cases s with
      | content c => exact .cons (.content (hf c)) (Body.TrimsTo.refl rest)
      | _ => exact Body.TrimsTo.refl _

/-- A trim of the last text trims the list. -/
theorem trimsTo_onLast (hf : ∀ c : Content, c.TrimsTo (f c)) : ∀ body : List Statement,
    Body.TrimsTo body (onLast f body)
  | [] => .nil
  | [.content c] => .cons (.content (hf c)) .nil
  | [.mustache _] | [.decorator _] | [.block _] | [.decoratorBlock _] | [.inclusion _]
  | [.inclusionBlock _] | [.comment _] => Body.TrimsTo.refl _
  | s :: s' :: rest => by
      rw [onLast_cons_cons]
      exact .cons (Statement.TrimsTo.refl s) (trimsTo_onLast hf (s' :: rest))

end

/-! ## Sections -/

section

variable {f : List Statement → List Statement}

/-- A trim of the statements trims the section. -/
theorem trimsTo_onBody (hf : ∀ body, Body.TrimsTo body (f body)) (p : Program) :
    p.TrimsTo (onBody f p) :=
  .mk p (hf p.body)

theorem trimsTo_map_onBody (hf : ∀ body, Body.TrimsTo body (f body)) (p : Option Program) :
    Section.TrimsTo p (p.map (onBody f)) := by
  cases p with
  | none => exact .none
  | some p => exact .some (trimsTo_onBody hf p)

/-- A trim of the first section of a chain trims the chain. -/
theorem trimsTo_onFirstSection (hf : ∀ body, Body.TrimsTo body (f body)) (p : Program) :
    p.TrimsTo (onFirstSection f p) := by
  unfold onFirstSection
  split
  · split
    · next b rest hb =>
        refine .mk p ?_
        rw [hb]
        exact .cons (.block b (trimsTo_map_onBody hf _) (Section.TrimsTo.refl _))
          (Body.TrimsTo.refl rest)
    · next b rest hb =>
        refine .mk p ?_
        rw [hb]
        exact .cons (.decoratorBlock b (trimsTo_map_onBody hf _) (Section.TrimsTo.refl _))
          (Body.TrimsTo.refl rest)
    · exact Program.TrimsTo.refl p
  · exact trimsTo_onBody hf p

mutual

/-- A trim of the last section of a chain trims the chain. -/
theorem trimsTo_onLastSection (hf : ∀ body, Body.TrimsTo body (f body)) :
    ∀ p : Program, p.TrimsTo (onLastSection f p)
  | ⟨body, blockParams, chained, loc⟩ => by
      refine .mk ⟨body, blockParams, chained, loc⟩ ?_
      show Body.TrimsTo body (if chained then onLastBlock f body else f body)
      split
      · exact trimsTo_onLastBlock hf body
      · exact hf body

theorem trimsTo_onLastBlock (hf : ∀ body, Body.TrimsTo body (f body)) :
    ∀ body : List Statement, Body.TrimsTo body (onLastBlock f body)
  | [] => .nil
  | [s] => .cons (trimsTo_onBlockSection hf s) .nil
  | s :: s' :: rest => .cons (Statement.TrimsTo.refl s) (trimsTo_onLastBlock hf (s' :: rest))

theorem trimsTo_onBlockSection (hf : ∀ body, Body.TrimsTo body (f body)) :
    ∀ s : Statement, s.TrimsTo (onBlockSection f s)
  | .block ⟨call, program, inverse, opening, middle, closing, loc⟩ =>
      .block ⟨call, program, inverse, opening, middle, closing, loc⟩
        (trimsTo_onSection hf program) (Section.TrimsTo.refl inverse)
  | .decoratorBlock ⟨call, program, inverse, opening, middle, closing, loc⟩ =>
      .decoratorBlock ⟨call, program, inverse, opening, middle, closing, loc⟩
        (trimsTo_onSection hf program) (Section.TrimsTo.refl inverse)
  | .mustache node => .mustache node
  | .decorator node => .decorator node
  | .inclusion node => Statement.TrimsTo.refl (.inclusion node)
  | .inclusionBlock node => Statement.TrimsTo.refl (.inclusionBlock node)
  | .content node => Statement.TrimsTo.refl (.content node)
  | .comment node => .comment node

theorem trimsTo_onSection (hf : ∀ body, Body.TrimsTo body (f body)) :
    ∀ p : Option Program, Section.TrimsTo p (onSection f p)
  | none => .none
  | some p => .some (trimsTo_onLastSection hf p)

end

end

/-! ## The tags inside a block -/

/-- A trim on a condition is a trim. -/
theorem trimsTo_ite {g : Program → Program} (hg : ∀ p : Program, p.TrimsTo (g p)) (b : Bool)
    (p : Program) : p.TrimsTo (if b then g p else p) := by
  split
  · exact hg p
  · exact Program.TrimsTo.refl p

/-- The tags at both ends of the main section trim it. -/
theorem trimsTo_trimMain (opening ender : Strip) (alone : Bool) (p : Program) :
    p.TrimsTo (trimMain opening ender alone p) :=
  ((trimsTo_ite (trimsTo_onBody (trimsTo_onFirst (.single .start))) _ p).trans
    (trimsTo_ite (trimsTo_onBody (trimsTo_onLast (.single .finish))) _ _)).trans
    (trimsTo_ite (trimsTo_onBody (trimsTo_onLast (.single .padding))) _ _)

/-- The tags at both ends of an else section trim it. -/
theorem trimsTo_trimElse (middle closing : Strip) (alone : Bool) (q : Program) :
    q.TrimsTo (trimElse middle closing alone q) :=
  ((trimsTo_ite (trimsTo_onFirstSection (trimsTo_onFirst (.single .start))) _ q).trans
    (trimsTo_ite (trimsTo_onLastSection (trimsTo_onLast (.single .finish))) _ _)).trans
    (trimsTo_ite (trimsTo_onFirstSection (trimsTo_onFirst (.single .line))) _ _)

section

variable (ignoreStandalone : Bool) (opening middle closing : Strip)

/-- The tags inside a block with a main section trim its sections. -/
theorem trimsTo_trimSections (p : Program) (inverse : Option Program) :
    p.TrimsTo (trimSections ignoreStandalone opening middle closing p inverse).1 ∧
      Section.TrimsTo inverse
        (trimSections ignoreStandalone opening middle closing p inverse).2.1 := by
  cases inverse with
  | none => exact ⟨trimsTo_trimMain opening closing false p, .none⟩
  | some q =>
      exact ⟨trimsTo_trimMain opening middle _ p, .some (trimsTo_trimElse middle closing _ q)⟩

/-- The tags inside a block trim its sections. -/
theorem trimsTo_trimBlock (program inverse : Option Program) :
    Section.TrimsTo program
        (trimBlock ignoreStandalone opening middle closing program inverse).1 ∧
      Section.TrimsTo inverse
        (trimBlock ignoreStandalone opening middle closing program inverse).2.1 := by
  cases program with
  | some p =>
      have h := trimsTo_trimSections ignoreStandalone opening middle closing p inverse
      exact ⟨.some h.1, h.2⟩
  | none =>
      cases inverse with
      | none => exact ⟨.none, .none⟩
      | some q =>
          have h := trimsTo_trimSections ignoreStandalone opening middle closing q none
          exact ⟨.none, .some h.1⟩

end

/-! ## The neighbours of a tag -/

/-- An opening tag trims the section behind it. -/
theorem trimsTo_openSection (program inverse : Option Program) :
    Section.TrimsTo program (openSection program inverse).1 ∧
      Section.TrimsTo inverse (openSection program inverse).2 := by
  cases program with
  | some p =>
      exact ⟨.some (trimsTo_onBody (trimsTo_onFirst (.single .line)) p), Section.TrimsTo.refl _⟩
  | none =>
      exact ⟨.none, trimsTo_map_onBody (trimsTo_onFirst (.single .line)) inverse⟩

/-- A closing tag trims the section in front of it. -/
theorem trimsTo_closeSection (program inverse : Option Program) :
    Section.TrimsTo program (closeSection program inverse).1 ∧
      Section.TrimsTo inverse (closeSection program inverse).2 := by
  cases inverse with
  | some p =>
      exact ⟨Section.TrimsTo.refl _, .some (trimsTo_onBody (trimsTo_onLast (.single .padding)) p)⟩
  | none =>
      exact ⟨trimsTo_map_onBody (trimsTo_onLast (.single .padding)) program, .none⟩

/-- A verdict trims inside a block at most. -/
theorem trimsTo_insideSections (v : Verdict) (program inverse : Option Program) :
    Section.TrimsTo program (insideSections v program inverse).1 ∧
      Section.TrimsTo inverse (insideSections v program inverse).2 := by
  unfold insideSections
  by_cases ho : v.openAlone = true
  · have hopen := trimsTo_openSection program inverse
    by_cases hc : v.closeAlone = true
    · have hclose := trimsTo_closeSection (openSection program inverse).1
        (openSection program inverse).2
      simp only [ho, hc, ↓reduceIte]
      exact ⟨hopen.1.trans hclose.1, hopen.2.trans hclose.2⟩
    · simp only [ho, hc, ↓reduceIte]
      exact hopen
  · by_cases hc : v.closeAlone = true
    · simp only [ho, hc, ↓reduceIte]
      exact trimsTo_closeSection program inverse
    · simp only [ho, hc]
      exact ⟨Section.TrimsTo.refl _, Section.TrimsTo.refl _⟩

theorem trimsTo_insideBody (v : Verdict) (p : Program) : p.TrimsTo (insideBody v p) :=
  (trimsTo_ite (trimsTo_onBody (trimsTo_onFirst (.single .line))) _ p).trans
    (trimsTo_ite (trimsTo_onBody (trimsTo_onLast (.single .padding))) _ _)

/-- What is done to a tag by its verdict are trims inside it, and the indent of a partial. -/
theorem trimsTo_finish (text : Option Content) (v : Verdict) (s : Statement) :
    s.TrimsTo (finish text v s) := by
  cases s with
  | inclusion node =>
      cases text with
      | none => exact Statement.TrimsTo.refl (.inclusion node)
      | some c => exact .inclusion node (indentAfter v c node.indent)
  | block node =>
      have h := trimsTo_insideSections v node.program node.inverse
      exact .block node h.1 h.2
  | decoratorBlock node =>
      have h := trimsTo_insideSections v node.program node.inverse
      exact .decoratorBlock node h.1 h.2
  | inclusionBlock node => exact .inclusionBlock node (trimsTo_insideBody v node.program)
  | mustache node => exact .mustache node
  | decorator node => exact .decorator node
  | content c => exact Statement.TrimsTo.refl (.content c)
  | comment node => exact .comment node

/-- A tag that is finished is a tag still. -/
theorem finish_of_ne {s : Statement} (hs : ∀ c, s ≠ .content c) (text : Option Content)
    (v : Verdict) : ∀ c, finish text v s ≠ .content c := by
  cases s with
  | content c => exact absurd rfl (hs c)
  | inclusion node => cases text <;> exact fun _ h => Statement.noConfusion h
  | _ => exact fun _ h => Statement.noConfusion h

/-- A trim of a text that is made on a condition is one. -/
theorem content_trimsTo_ite (t : Trim) (b : Bool) (c : Content) :
    c.TrimsTo (if b then t.apply c else c) := by
  split
  · exact .single t c
  · exact .refl

/-- A tag trims the text behind it. -/
theorem trimsTo_afterTag (tag : Option Verdict) (c : Content) : c.TrimsTo (afterTag tag c) := by
  cases tag with
  | none => exact .refl
  | some v =>
      exact (content_trimsTo_ite .start v.allAfter c).trans
        (content_trimsTo_ite .line v.lineAfter _)

/-- A tag trims the text in front of it. -/
theorem trimsTo_beforeTag (tag : Option Verdict) (c : Content) :
    c.TrimsTo (beforeTag tag c) := by
  cases tag with
  | none => exact .refl
  | some v =>
      exact (content_trimsTo_ite .finish v.allBefore c).trans
        (content_trimsTo_ite .padding v.lineBefore _)

/-- The verdict on the first of some statements. -/
def verdictAt (judged : List Judged) : Option Verdict := judged.head?.bind Prod.snd

/-- A statement that is no text, with its verdict carried out if it has one. -/
def finishWith (text : Option Content) (s : Statement) : Option Verdict → Statement
  | none => s
  | some v => finish text v s

/-- A tag stays a tag, with a verdict or without one. -/
theorem finishWith_of_ne {s : Statement} (hs : ∀ c, s ≠ .content c) (text : Option Content)
    (v : Option Verdict) : ∀ c, finishWith text s v ≠ .content c := by
  cases v with
  | none => exact hs
  | some v => exact finish_of_ne hs text v

/-- At a tag the list is aligned behind it by its verdict, and no text stands in front of
what follows. -/
theorem align_cons_of_ne {s : Statement} (hs : ∀ c, s ≠ .content c) (tag : Option Verdict)
    (text : Option Content) (v : Option Verdict) (rest : List Judged) :
    align tag text ((s, v) :: rest) = finishWith text s v :: align v none rest := by
  cases s with
  | content c => exact absurd rfl (hs c)
  | _ => cases v <;> rfl

/-- A statement is finished by trims, with a verdict or without one. -/
theorem trimsTo_finishWith (text : Option Content) (s : Statement) (v : Option Verdict) :
    s.TrimsTo (finishWith text s v) := by
  cases v with
  | none => exact Statement.TrimsTo.refl s
  | some v => exact trimsTo_finish text v s

/-- Between the tags of a list texts are trimmed. -/
theorem trimsTo_align (tag : Option Verdict) (text : Option Content) (judged : List Judged) :
    Body.TrimsTo (judged.map Prod.fst) (align tag text judged) := by
  induction judged generalizing tag text with
  | nil => exact .nil
  | cons head rest ih =>
      obtain ⟨s, v⟩ := head
      rcases s.content_or_ne with ⟨c, rfl⟩ | hs
      · have h := (trimsTo_afterTag tag c).trans
          (trimsTo_beforeTag (rest.head?.bind Prod.snd) (afterTag tag c))
        exact .cons (.content h) (ih none _)
      · rw [align_cons_of_ne hs]
        exact .cons (trimsTo_finishWith text s v) (ih v none)

/-! ## The pass -/

/-- Only text reports nothing, and a tag stays a tag. -/
theorem settle_of_ne (i : Bool) : ∀ {s : Statement}, (∀ c, s ≠ .content c) →
    ∃ s' strip, settle i s = (s', some strip) ∧ ∀ c, s' ≠ .content c
  | .content c, hs => absurd rfl (hs c)
  | .mustache _, _ | .decorator _, _ | .inclusion _, _ | .comment _, _
  | .block ⟨_, _, _, _, _, _, _⟩, _ | .decoratorBlock ⟨_, _, _, _, _, _, _⟩, _
  | .inclusionBlock ⟨_, _, _, _, _⟩, _ => ⟨_, _, rfl, fun _ h => Statement.noConfusion h⟩

/-- Judging the statements of a list changes none of them. -/
theorem judgeAll_map_fst (ignoreStandalone root : Bool) (before : List Statement)
    (settled : List Settled) :
    (judgeAll ignoreStandalone root before settled).map Prod.fst = settled.map Prod.fst := by
  induction settled generalizing before with
  | nil => rfl
  | cons head rest ih =>
      show head.1 :: _ = head.1 :: _
      rw [ih]

mutual

/-- The pass changes a program by trims of its texts and by indents only. -/
theorem trimsTo_program (ignoreStandalone root : Bool) : ∀ p : Program,
    p.TrimsTo (program ignoreStandalone root p)
  | ⟨body, blockParams, chained, loc⟩ => by
      refine .mk ⟨body, blockParams, chained, loc⟩ ?_
      have hsettle := trimsTo_settleAll ignoreStandalone body
      have halign := trimsTo_align none none
        (judgeAll ignoreStandalone root [] (settleAll ignoreStandalone body))
      rw [judgeAll_map_fst] at halign
      exact hsettle.trans halign

/-- Each statement of a list is settled by trims inside it. -/
theorem trimsTo_settleAll (ignoreStandalone : Bool) : ∀ body : List Statement,
    Body.TrimsTo body ((settleAll ignoreStandalone body).map Prod.fst)
  | [] => .nil
  | s :: rest =>
      .cons (trimsTo_settle ignoreStandalone s) (trimsTo_settleAll ignoreStandalone rest)

/-- A statement is settled by trims inside it. -/
theorem trimsTo_settle (ignoreStandalone : Bool) : ∀ s : Statement,
    s.TrimsTo (settle ignoreStandalone s).1
  | .mustache node => .mustache node
  | .decorator node => .decorator node
  | .inclusion node => Statement.TrimsTo.refl (.inclusion node)
  | .comment node => .comment node
  | .content node => Statement.TrimsTo.refl (.content node)
  | .block ⟨call, main, inverse, opening, middle, closing, loc⟩ => by
      have h := trimsTo_trimBlock ignoreStandalone opening middle closing
        (bodyOf ignoreStandalone main) (bodyOf ignoreStandalone inverse)
      exact .block ⟨call, main, inverse, opening, middle, closing, loc⟩
        ((trimsTo_bodyOf ignoreStandalone main).trans h.1)
        ((trimsTo_bodyOf ignoreStandalone inverse).trans h.2)
  | .decoratorBlock ⟨call, main, inverse, opening, middle, closing, loc⟩ => by
      have h := trimsTo_trimBlock ignoreStandalone opening middle closing
        (bodyOf ignoreStandalone main) (bodyOf ignoreStandalone inverse)
      exact .decoratorBlock ⟨call, main, inverse, opening, middle, closing, loc⟩
        ((trimsTo_bodyOf ignoreStandalone main).trans h.1)
        ((trimsTo_bodyOf ignoreStandalone inverse).trans h.2)
  | .inclusionBlock ⟨call, main, opening, closing, loc⟩ => by
      have h := trimsTo_trimSections ignoreStandalone opening {} closing
        (program ignoreStandalone false main) none
      exact .inclusionBlock ⟨call, main, opening, closing, loc⟩
        ((trimsTo_program ignoreStandalone false main).trans h.1)

/-- The pass trims a section. -/
theorem trimsTo_bodyOf (ignoreStandalone : Bool) : ∀ p : Option Program,
    Section.TrimsTo p (bodyOf ignoreStandalone p)
  | none => .none
  | some p => .some (trimsTo_program ignoreStandalone false p)

end

/-! ## Lines

Lines are read off the texts as they were written, which no trim changes. -/

/-- Trims take no statement away and add none. -/
theorem Body.TrimsTo.isEmpty_eq {body body' : List Statement} (h : Body.TrimsTo body body') :
    body'.isEmpty = body.isEmpty := by
  cases h with
  | nil => rfl
  | cons _ _ => rfl

/-- Whether a line ends in front of a tag is the same before and after trims. -/
theorem lineEnds_of_trimsTo {before before' : List Statement} (h : Body.TrimsTo before before')
    (root : Bool) : lineEnds root before' = lineEnds root before := by
  cases h with
  | nil => rfl
  | cons hs hmore =>
      cases hs with
      | content hc => simp only [lineEnds, hc.written_eq, Body.TrimsTo.isEmpty_eq hmore]
      | _ => rfl

/-- Whether a line starts behind a tag is the same before and after trims. -/
theorem lineStarts_of_trimsTo {after after' : List Statement} (h : Body.TrimsTo after after')
    (root : Bool) : lineStarts root after' = lineStarts root after := by
  cases h with
  | nil => rfl
  | cons hs hmore =>
      cases hs with
      | content hc => simp only [lineStarts, hc.written_eq, Body.TrimsTo.isEmpty_eq hmore]
      | _ => rfl

/-- The verdict on a tag does not depend on what was trimmed around it. -/
theorem judge_of_trimsTo {before before' after after' : List Statement}
    (hb : Body.TrimsTo before before') (ha : Body.TrimsTo after after')
    (ignoreStandalone root : Bool) (strip : Strip) :
    judge ignoreStandalone root strip before' after' =
      judge ignoreStandalone root strip before after := by
  simp only [judge, lineEnds_of_trimsTo hb, lineStarts_of_trimsTo ha]

end Layout
end Stache
