import Stache.Proofs.Layout.Idempotent

/-!
# More padding goes

A run that keeps the padding around tags that stand alone trims at markers only,
and where the markers are has nothing to do with the texts.  So it keeps the
order of two trees in which each text of the one is that of the other with white
space around it (`Control.keeps_normalize`).

That compares the two options.  A run that removes padding too leaves a tree
whose texts lack white space at their ends, and a run that keeps padding has
nothing to do there.  So what the one leaves is enclosed by what the other
leaves of the original.
-/

namespace Stache

/-- A step carries related things to related things. -/
def Keeps {α : Type} (R : α → α → Prop) (f : α → α) : Prop :=
  ∀ x y : α, R x y → R (f x) (f y)

namespace Keeps

variable {α : Type} {R : α → α → Prop} {f g : α → α}

theorem id : Keeps R fun x => x := fun _ _ h => h

/-- Two steps that keep a relation keep it one after the other. -/
theorem comp (hg : Keeps R g) (hf : Keeps R f) : Keeps R fun x => g (f x) :=
  fun x y h => hg (f x) (f y) (hf x y h)

/-- A step on a condition keeps a relation if the step does. -/
theorem ite (hf : Keeps R f) (b : Bool) : Keeps R fun x => if b then f x else x := by
  cases b with
  | true => exact hf
  | false => exact id

end Keeps

/-! ## One text -/

namespace Text

/-- A text is another one with white space around it. -/
def Encloses (t u : Text) : Prop :=
  ∃ p s : Text, (∀ c ∈ p, isSpace c = true) ∧ (∀ c ∈ s, isSpace c = true) ∧ t = p ++ u ++ s

namespace Encloses

variable {t u : Text}

/-- The text inside is a piece of the one around it. -/
theorem isInfix (h : Encloses t u) : u <:+: t := by
  obtain ⟨p, s, -, -, ht⟩ := h
  exact ⟨p, s, ht.symm⟩

/-- White space around a text is around it in reverse. -/
theorem reverse (h : Encloses t u) : Encloses t.reverse u.reverse := by
  obtain ⟨p, s, hp, hs, rfl⟩ := h
  refine ⟨s.reverse, p.reverse, fun c hc => hs c (List.mem_reverse.mp hc),
    fun c hc => hp c (List.mem_reverse.mp hc), ?_⟩
  simp only [List.reverse_append, List.append_assoc]

end Encloses

/-- A trim at the start keeps what is enclosed.  Where nothing but white space
is, the trim of the outer text goes on behind it and takes that too. -/
theorem keeps_trimStart : Keeps Encloses trimStart := by
  rintro t u ⟨p, s, hp, hs, rfl⟩
  have ht : trimStart (p ++ u ++ s) = trimStart (u ++ s) := by
    rw [trimStart, List.append_assoc, List.dropWhile_append_of_pos hp]
    rfl
  rw [ht, trimStart, trimStart, List.dropWhile_append]
  by_cases hu : u.dropWhile isSpace = []
  · refine ⟨[], [], by simp, by simp, ?_⟩
    rw [hu, List.dropWhile_eq_nil_iff.mpr hs]
    rfl
  · refine ⟨[], s, by simp, hs, ?_⟩
    rw [if_neg (by simpa using hu)]
    rfl

/-- The end of a text is the start of its reverse. -/
theorem trimEnd_eq_reverse (t : Text) : trimEnd t = (trimStart t.reverse).reverse := rfl

theorem keeps_trimEnd : Keeps Encloses trimEnd := fun t u h => by
  rw [trimEnd_eq_reverse, trimEnd_eq_reverse]
  exact (keeps_trimStart _ _ h.reverse).reverse

end Text

/-- Two states of one text, the first with white space around the value of the
second. -/
structure Content.Encloses (c d : Content) : Prop where
  value : c.value.Encloses d.value
  written : d.written = c.written
  loc : d.loc = c.loc

namespace Content

/-- A text that loses white space has it around it. -/
theorem Loses.encloses {c d : Content} (h : c.Loses d) : c.Encloses d := by
  obtain ⟨p, s, hp, hs, hv, -, -⟩ := h.value
  exact ⟨⟨p, s, hp, hs, hv⟩, h.written, h.loc⟩

theorem keeps_trimStart : Keeps Encloses trimStart :=
  fun c d h => ⟨Text.keeps_trimStart c.value d.value h.value, h.written, h.loc⟩

theorem keeps_trimEnd : Keeps Encloses trimEnd :=
  fun c d h => ⟨Text.keeps_trimEnd c.value d.value h.value, h.written, h.loc⟩

end Content

namespace Layout

variable {R : Content → Content → Prop}

/-! ## The ends of a list -/

section

variable {f : Content → Content}

/-- A change of the first text keeps what the change of the text keeps. -/
theorem keeps_onFirst (hf : Keeps R f) : Keeps (Body.Alike R) (onFirst f) := by
  intro body body' hb
  cases hb with
  | nil => exact .nil
  | @cons s t rest rest' hs hrest =>
      rcases s.content_or_ne with ⟨c, rfl⟩ | hne
      · cases hs with
        | content hc => exact .cons (.content (hf _ _ hc)) hrest
      · rw [onFirst_cons_of_ne f hne, onFirst_cons_of_ne f (hs.ne_content hne)]
        exact .cons hs hrest

/-- A change of the last text keeps what the change of the text keeps. -/
theorem keeps_onLast (hf : Keeps R f) : Keeps (Body.Alike R) (onLast f)
  | [], _, .nil => .nil
  | [s], _, .cons hs .nil => by
      rcases s.content_or_ne with ⟨c, rfl⟩ | hne
      · cases hs with
        | content hc => exact .cons (.content (hf _ _ hc)) .nil
      · rw [onLast_singleton_of_ne f hne, onLast_singleton_of_ne f (hs.ne_content hne)]
        exact .cons hs .nil
  | s :: s' :: rest, _, .cons hs (.cons hs' hrest) => by
      rw [onLast_cons_cons, onLast_cons_cons]
      exact .cons hs (keeps_onLast hf _ _ (.cons hs' hrest))

end

/-! ## Sections -/

section

variable {f : List Statement → List Statement}

/-- A change of the statements of a section keeps what they keep. -/
theorem keeps_onBody (hf : Keeps (Body.Alike R) f) : Keeps (Program.Alike R) (onBody f) := by
  intro p q h
  cases h with
  | mk _ hb => exact .mk (onBody f p) (hf _ _ hb)

theorem keeps_map_onBody (hf : Keeps (Body.Alike R) f) :
    Keeps (Section.Alike R) (Option.map (onBody f)) := by
  rintro _ _ (_ | h)
  · exact .none
  · exact .some (keeps_onBody hf _ _ h)

/-- Alike chains have alike first sections. -/
theorem keeps_onFirstSection (hf : Keeps (Body.Alike R) f) :
    Keeps (Program.Alike R) (onFirstSection f) := by
  rintro _ _ ⟨⟨body, blockParams, chained, loc⟩, hb⟩
  cases chained with
  | false => exact keeps_onBody hf _ _ (.mk _ hb)
  | true =>
      cases hb with
      | nil => exact .mk _ .nil
      | cons hs hrest =>
          cases hs with
          | block b hp hi =>
              exact .mk (onFirstSection f ⟨.block b :: _, blockParams, true, loc⟩)
                (.cons (.block { b with program := b.program.map (onBody f) }
                  (keeps_map_onBody hf _ _ hp) hi) hrest)
          | decoratorBlock b hp hi =>
              exact .mk (onFirstSection f ⟨.decoratorBlock b :: _, blockParams, true, loc⟩)
                (.cons (.decoratorBlock { b with program := b.program.map (onBody f) }
                  (keeps_map_onBody hf _ _ hp) hi) hrest)
          | content hc => exact .mk ⟨_, blockParams, true, loc⟩ (.cons (.content hc) hrest)
          | mustache node => exact .mk ⟨_, blockParams, true, loc⟩ (.cons (.mustache node) hrest)
          | decorator node => exact .mk ⟨_, blockParams, true, loc⟩ (.cons (.decorator node) hrest)
          | comment node => exact .mk ⟨_, blockParams, true, loc⟩ (.cons (.comment node) hrest)
          | inclusion node indent =>
              exact .mk ⟨_, blockParams, true, loc⟩ (.cons (.inclusion node indent) hrest)
          | inclusionBlock node hp =>
              exact .mk ⟨_, blockParams, true, loc⟩ (.cons (.inclusionBlock node hp) hrest)

mutual

/-- Alike chains have alike last sections. -/
theorem keeps_onLastSection (hf : Keeps (Body.Alike R) f) :
    Keeps (Program.Alike R) (onLastSection f)
  | ⟨body, blockParams, chained, loc⟩, _, .mk _ hb => by
      cases chained with
      | true => exact .mk ⟨_, blockParams, true, loc⟩ (keeps_onLastBlock hf body _ hb)
      | false => exact .mk ⟨_, blockParams, false, loc⟩ (hf body _ hb)

theorem keeps_onLastBlock (hf : Keeps (Body.Alike R) f) :
    Keeps (Body.Alike R) (onLastBlock f)
  | [], _, .nil => .nil
  | [s], _, .cons hs .nil => .cons (keeps_onBlockSection hf s _ hs) .nil
  | _ :: s :: rest, _, .cons hs (.cons hs' hrest) =>
      .cons hs (keeps_onLastBlock hf (s :: rest) _ (.cons hs' hrest))

theorem keeps_onBlockSection (hf : Keeps (Body.Alike R) f) :
    Keeps (Statement.Alike R) (onBlockSection f)
  | .block ⟨call, program, inverse, opening, middle, closing, loc⟩, _, .block _ hp hi =>
      .block ⟨call, onSection f program, inverse, opening, middle, closing, loc⟩
        (keeps_onSection hf program _ hp) hi
  | .decoratorBlock ⟨call, program, inverse, opening, middle, closing, loc⟩, _,
      .decoratorBlock _ hp hi =>
      .decoratorBlock ⟨call, onSection f program, inverse, opening, middle, closing, loc⟩
        (keeps_onSection hf program _ hp) hi
  | .mustache _, _, .mustache node => .mustache node
  | .decorator _, _, .decorator node => .decorator node
  | .inclusion _, _, .inclusion node indent => .inclusion node indent
  | .inclusionBlock _, _, .inclusionBlock node hp => .inclusionBlock node hp
  | .content _, _, .content hc => .content hc
  | .comment _, _, .comment node => .comment node

theorem keeps_onSection (hf : Keeps (Body.Alike R) f) :
    Keeps (Section.Alike R) (onSection f)
  | none, _, .none => .none
  | some p, _, .some h => .some (keeps_onLastSection hf p _ h)

end

end

/-! ## The tags inside a block -/

section

variable (hstart : Keeps R Content.trimStart) (hfinish : Keeps R Content.trimEnd)

include hstart hfinish

/-- Markers trim alike main sections alike. -/
theorem keeps_trimMain (opening ender : Strip) :
    Keeps (Program.Alike R) (trimMain opening ender false) :=
  ((keeps_onBody (keeps_onLast hfinish)).ite ender.before).comp
    ((keeps_onBody (keeps_onFirst hstart)).ite opening.after)

/-- Markers trim alike else sections alike. -/
theorem keeps_trimElse (middle closing : Strip) :
    Keeps (Program.Alike R) (trimElse middle closing false) := by
  have hfirst := (keeps_onFirstSection (keeps_onFirst hstart)).ite middle.after
  have hlast := Keeps.ite (keeps_onLastSection (keeps_onLast hfinish)) closing.before
  exact fun p q h => hlast _ _ (hfirst p q h)

/-- The markers inside a block trim alike sections alike. -/
theorem alike_trimBlock (opening middle closing : Strip) {main main' inverse inverse' :
    Option Program} (hp : Section.Alike R main main') (hi : Section.Alike R inverse inverse') :
    Section.Alike R (trimBlock true opening middle closing main inverse).1
        (trimBlock true opening middle closing main' inverse').1 ∧
      Section.Alike R (trimBlock true opening middle closing main inverse).2.1
        (trimBlock true opening middle closing main' inverse').2.1 := by
  have hmain := keeps_trimMain hstart hfinish
  have helse := keeps_trimElse hstart hfinish
  cases hp with
  | some hp =>
      cases hi with
      | none => exact ⟨.some (hmain opening closing _ _ hp), .none⟩
      | some hi =>
          exact ⟨.some (hmain opening middle _ _ hp), .some (helse middle closing _ _ hi)⟩
  | none =>
      cases hi with
      | none => exact ⟨.none, .none⟩
      | some hi => exact ⟨.none, .some (hmain opening closing _ _ hi)⟩

end

/-! ## Trims at markers only -/

/-- The verdict on a tag that trims at its markers only. -/
def markVerdict (strip : Strip) : Verdict :=
  ⟨strip.before, strip.after, false, false, false⟩

/-- The verdicts on some statements, whatever texts are between them. -/
def markAll (settled : List Settled) : List Judged :=
  settled.map fun x => (x.1, x.2.map markVerdict)

/-- Where padding is kept, no text has a say in a verdict. -/
theorem judgeAll_eq_markAll (root : Bool) (before : List Statement) (settled : List Settled) :
    judgeAll true root before settled = markAll settled := by
  induction settled generalizing before with
  | nil => rfl
  | cons x rest ih => exact congrArg (List.cons _) (ih (x.1 :: before))

/-- Without a line of its own a tag leaves its sections and its indent as they are. -/
theorem finish_markVerdict (text : Option Content) (strip : Strip) (s : Statement) :
    finish text (markVerdict strip) s = s := by
  cases s with
  | inclusion node => cases text <;> rfl
  | block node => obtain ⟨call, main, inverse, opening, middle, closing, loc⟩ := node; rfl
  | decoratorBlock node => obtain ⟨call, main, inverse, opening, middle, closing, loc⟩ := node; rfl
  | inclusionBlock node => obtain ⟨call, main, opening, closing, loc⟩ := node; rfl
  | _ => rfl

theorem finishWith_markVerdict (text : Option Content) (strip : Option Strip) (s : Statement) :
    finishWith text s (strip.map markVerdict) = s := by
  cases strip with
  | none => rfl
  | some strip => exact finish_markVerdict text strip s

/-- Markers are reported as they are written. -/
theorem markVerdict_reportSections (opening closing : Strip) (main inverse : Option Program) :
    markVerdict (reportSections opening closing main inverse) =
      ⟨opening.before, closing.after, false, false, false⟩ := by
  cases main with
  | some p => rfl
  | none => cases inverse <;> rfl

/-- Alike statements with the same markers. -/
def MarkedAlike (R : Content → Content → Prop) (x y : Settled) : Prop :=
  Statement.Alike R x.1 y.1 ∧ x.2.map markVerdict = y.2.map markVerdict

/-- Alike statements report the same markers. -/
theorem markedAlike_settle {s t : Statement} (h : s.Alike R t)
    (hsettle : Statement.Alike R (settle true s).1 (settle true t).1) :
    MarkedAlike R (settle true s) (settle true t) := by
  refine ⟨hsettle, ?_⟩
  rw [settle_report, settle_report]
  cases h with
  | block node hp hi | decoratorBlock node hp hi =>
      obtain ⟨call, main, inverse, opening, middle, closing, loc⟩ := node
      simp only [reportOf, Option.map_some, markVerdict_reportSections]
  | inclusionBlock node hp =>
      obtain ⟨call, main, opening, closing, loc⟩ := node
      rfl
  | _ => rfl

/-- Alike statements have the same verdict on the first of them. -/
theorem verdictAt_markAll {settled settled' : List Settled}
    (h : List.Forall₂ (MarkedAlike R) settled settled') :
    verdictAt (markAll settled) = verdictAt (markAll settled') := by
  cases h with
  | nil => rfl
  | cons hxy _ => exact hxy.2

/-! ## The pass -/

section

variable (hstart : Keeps R Content.trimStart) (hfinish : Keeps R Content.trimEnd)

include hstart in
/-- The marker at the end of a tag trims alike texts alike. -/
theorem keeps_afterTag (tag : Option Strip) : Keeps R (afterTag (tag.map markVerdict)) := by
  cases tag with
  | none => exact .id
  | some strip => exact hstart.ite strip.after

include hfinish in
/-- The marker at the start of a tag trims alike texts alike. -/
theorem keeps_beforeTag (tag : Option Strip) : Keeps R (beforeTag (tag.map markVerdict)) := by
  cases tag with
  | none => exact .id
  | some strip => exact hfinish.ite strip.before

include hstart hfinish

/-- Alike statements with the same markers stay alike among their neighbours. -/
theorem alike_align {settled settled' : List Settled}
    (h : List.Forall₂ (MarkedAlike R) settled settled') (tag : Option Strip)
    (text text' : Option Content) :
    Body.Alike R (align (tag.map markVerdict) text (markAll settled))
      (align (tag.map markVerdict) text' (markAll settled')) := by
  induction h generalizing tag text text' with
  | nil => exact .nil
  | @cons x y rest rest' hxy hrest ih =>
      obtain ⟨s, f⟩ := x
      obtain ⟨t, g⟩ := y
      obtain ⟨hs, hfg⟩ : s.Alike R t ∧ f.map markVerdict = g.map markVerdict := hxy
      rcases s.content_or_ne with ⟨c, rfl⟩ | hne
      · cases hs with
        | @content _ d hc =>
            have hnext : ∃ next : Option Strip,
                verdictAt (markAll rest) = next.map markVerdict := by
              cases rest with
              | nil => exact ⟨none, rfl⟩
              | cons x _ => exact ⟨x.2, rfl⟩
            obtain ⟨next, hnext⟩ := hnext
            have hc' := keeps_beforeTag hfinish next _ _ (keeps_afterTag hstart tag c d hc)
            rw [← hnext] at hc'
            nth_rewrite 2 [verdictAt_markAll hrest] at hc'
            exact .cons (.content hc') (ih none _ _)
      · have hne' := hs.ne_content hne
        show Body.Alike R (align _ text ((s, f.map markVerdict) :: markAll rest))
          (align _ text' ((t, g.map markVerdict) :: markAll rest'))
        rw [align_cons_of_ne hne, align_cons_of_ne hne', finishWith_markVerdict,
          finishWith_markVerdict, ← hfg]
        exact .cons hs (ih f none none)

end

mutual

/-- A run that keeps padding carries alike trees to alike trees, as long as
trims at markers do the same to texts. -/
theorem keeps_program (hstart : Keeps R Content.trimStart) (hfinish : Keeps R Content.trimEnd)
    (root : Bool) : Keeps (Program.Alike R) (program true root)
  | ⟨body, blockParams, chained, loc⟩, _, .mk _ hb => by
      have h := alike_align hstart hfinish (alike_settleAll hstart hfinish body _ hb) none none none
      rw [← judgeAll_eq_markAll root [], ← judgeAll_eq_markAll root []] at h
      exact .mk (program true root ⟨body, blockParams, chained, loc⟩) h

/-- Alike statements are settled alike, with the same markers. -/
theorem alike_settleAll (hstart : Keeps R Content.trimStart) (hfinish : Keeps R Content.trimEnd) :
    ∀ body body' : List Statement, Body.Alike R body body' →
      List.Forall₂ (MarkedAlike R) (settleAll true body) (settleAll true body')
  | [], _, .nil => .nil
  | s :: rest, _, .cons hs hrest =>
      .cons (markedAlike_settle hs (alike_settle hstart hfinish s _ hs))
        (alike_settleAll hstart hfinish rest _ hrest)

/-- Alike statements are settled alike. -/
theorem alike_settle (hstart : Keeps R Content.trimStart) (hfinish : Keeps R Content.trimEnd) :
    ∀ s t : Statement, s.Alike R t → Statement.Alike R (settle true s).1 (settle true t).1
  | .mustache _, _, .mustache node => .mustache node
  | .decorator _, _, .decorator node => .decorator node
  | .inclusion _, _, .inclusion node indent => .inclusion node indent
  | .comment _, _, .comment node => .comment node
  | .content _, _, .content hc => .content hc
  | .block ⟨call, main, inverse, opening, middle, closing, loc⟩, _, .block _ hp hi =>
      have h := alike_trimBlock hstart hfinish opening middle closing
        (keeps_bodyOf hstart hfinish main _ hp) (keeps_bodyOf hstart hfinish inverse _ hi)
      .block ⟨call, _, _, opening, middle, closing, loc⟩ h.1 h.2
  | .decoratorBlock ⟨call, main, inverse, opening, middle, closing, loc⟩, _,
      .decoratorBlock _ hp hi =>
      have h := alike_trimBlock hstart hfinish opening middle closing
        (keeps_bodyOf hstart hfinish main _ hp) (keeps_bodyOf hstart hfinish inverse _ hi)
      .decoratorBlock ⟨call, _, _, opening, middle, closing, loc⟩ h.1 h.2
  | .inclusionBlock ⟨call, main, opening, closing, loc⟩, _, .inclusionBlock _ hp =>
      .inclusionBlock ⟨call, _, opening, closing, loc⟩
        (keeps_trimMain hstart hfinish opening closing _ _
          (keeps_program hstart hfinish false main _ hp))

/-- Alike sections are normalized alike. -/
theorem keeps_bodyOf (hstart : Keeps R Content.trimStart) (hfinish : Keeps R Content.trimEnd) :
    Keeps (Section.Alike R) (bodyOf true)
  | none, _, .none => .none
  | some p, _, .some h => .some (keeps_program hstart hfinish false p _ h)

end

/-- **Standalone detection only ever removes more.**  Of two copies of any tree,
one is normalized with the padding around lone tags kept, the other with that
padding removed.  What comes out differs in texts and in the indents of partials
only, and each text of the second is a contiguous piece of the same text of the
first, which has more white space around it. -/
theorem Control.alike_ignoreStandalone (p : Program) :
    Program.Alike (fun c d => d.value <:+: c.value ∧ c.Encloses d)
      (({ ignoreStandalone := true } : Control).normalize p).1
      (({ ignoreStandalone := false } : Control).normalize p).1 := by
  have htrims : Program.Alike Content.Encloses p
      (({ ignoreStandalone := false } : Control).normalize p).1 :=
    (trimsTo_program false true p).mono fun c d h => h.loses.encloses
  have hkeeps := keeps_program Content.keeps_trimStart Content.keeps_trimEnd true _ _ htrims
  have hkept : ({ ignoreStandalone := true } : Control).ignoreStandalone = false ∨
      ({ ignoreStandalone := true } : Control).ignoreStandalone = true := Or.inr rfl
  have hsettled := Control.normalize_eq_self hkept p
  have h : Program.Alike Content.Encloses (program true true p)
      (({ ignoreStandalone := false } : Control).normalize p).1 := hsettled ▸ hkeeps
  exact h.mono fun c d hcd => ⟨hcd.value.isInfix, hcd⟩

end Layout
end Stache
