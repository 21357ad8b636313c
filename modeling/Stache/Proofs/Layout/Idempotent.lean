import Stache.Proofs.Layout.Settle

/-!
# Whitespace control settles

Once the pass went over a tree, a later run that trims no more leaves the tree
as it is: a run with the same options, or one that keeps the padding around tags
that stand alone, as a root or not.

A later run sees the same texts as written, so it comes to verdicts that ask for
no trim that the first run did not make (`Verdict.Within`).  Each of these is
settled.  The indent of a partial stays too: the padding before it is gone, so
there is none to take.
-/

namespace Stache
namespace Layout

/-! ## Verdicts that ask for less -/

/-- A verdict that asks for no more trims than another, and for the same ones
at its markers. -/
structure Verdict.Within (v' v : Verdict) : Prop where
  /-- The marker before the tag is the same. -/
  allBefore : v'.allBefore = v.allBefore
  /-- The marker behind the tag is the same. -/
  allAfter : v'.allAfter = v.allAfter
  /-- It stands alone as a whole only if the other does. -/
  inlineAlone : v'.inlineAlone = true → v.inlineAlone = true
  /-- Its opening tag stands alone only if that of the other does. -/
  openAlone : v'.openAlone = true → v.openAlone = true
  /-- Its closing tag stands alone only if that of the other does. -/
  closeAlone : v'.closeAlone = true → v.closeAlone = true

namespace Verdict.Within

variable {v v' : Verdict}

theorem lineBefore (h : v'.Within v) (hv : v'.lineBefore = true) : v.lineBefore = true := by
  rw [Verdict.lineBefore, Bool.or_eq_true] at hv ⊢
  exact hv.imp h.inlineAlone h.openAlone

theorem lineAfter (h : v'.Within v) (hv : v'.lineAfter = true) : v.lineAfter = true := by
  rw [Verdict.lineAfter, Bool.or_eq_true] at hv ⊢
  exact hv.imp h.inlineAlone h.closeAlone

end Verdict.Within

/-- The same for tags that may be missing. -/
inductive Within : Option Verdict → Option Verdict → Prop where
  | none : Within none none
  | some {v' v : Verdict} (h : v'.Within v) : Within (some v') (some v)

theorem lineEnds_mono {root root' : Bool} (hroot : root' = true → root = true)
    {before : List Statement} (h : lineEnds root' before = true) :
    lineEnds root before = true := by
  cases before with
  | nil => exact hroot h
  | cons s more =>
      cases s with
      | content c =>
          simp only [lineEnds, Bool.or_eq_true, Bool.and_eq_true] at h ⊢
          rcases h with h | ⟨⟨hr, hm⟩, hs⟩
          · exact Or.inl h
          · exact Or.inr ⟨⟨hroot hr, hm⟩, hs⟩
      | _ => exact h

theorem lineStarts_mono {root root' : Bool} (hroot : root' = true → root = true)
    {after : List Statement} (h : lineStarts root' after = true) :
    lineStarts root after = true := by
  cases after with
  | nil => exact hroot h
  | cons s more =>
      cases s with
      | content c =>
          simp only [lineStarts, Bool.or_eq_true, Bool.and_eq_true] at h ⊢
          rcases h with h | ⟨⟨hr, hm⟩, hs⟩
          · exact Or.inl h
          · exact Or.inr ⟨⟨hroot hr, hm⟩, hs⟩
      | _ => exact h

section

variable {i i' root root' : Bool}

/-- A later run comes to verdicts that ask for no more. -/
theorem judge_within (hi : i' = false → i = false) (hroot : root' = true → root = true)
    {before before' after after' : List Statement} (hb : Body.TrimsTo before before')
    (ha : Body.TrimsTo after after') (strip : Strip) :
    (judge i' root' strip before' after').Within (judge i root strip before after) := by
  rw [judge_of_trimsTo hb ha]
  have hignore : (!i') = true → (!i) = true := by
    rw [Bool.not_eq_true', Bool.not_eq_true']
    exact hi
  have hends : lineEnds root' before = true → lineEnds root before = true := lineEnds_mono hroot
  have hstarts : lineStarts root' after = true → lineStarts root after = true :=
    lineStarts_mono hroot
  refine ⟨rfl, rfl, ?_, ?_, ?_⟩
  · simp only [judge, Bool.and_eq_true]
    rintro ⟨⟨⟨hi', hs⟩, he⟩, ha⟩
    exact ⟨⟨⟨hignore hi', hs⟩, hends he⟩, hstarts ha⟩
  · simp only [judge, Bool.and_eq_true]
    rintro ⟨⟨hi', hs⟩, he⟩
    exact ⟨⟨hignore hi', hs⟩, hends he⟩
  · simp only [judge, Bool.and_eq_true]
    rintro ⟨⟨hi', hs⟩, ha⟩
    exact ⟨⟨hignore hi', hs⟩, hstarts ha⟩

end

/-! ## Around a tag -/

theorem settles_afterTag {tag' tag : Option Verdict} (h : Within tag' tag) :
    Settles Content.TrimsTo (afterTag tag) (afterTag tag') := by
  cases h with
  | none => exact fun _ _ _ => rfl
  | some h =>
      exact (Trim.start.settles.ite (h.allAfter ▸ id)).comp
        (Trim.line.settles.ite h.lineAfter) (content_trimsTo_ite .line _)
        Content.TrimsTo.trans

theorem settles_beforeTag {tag' tag : Option Verdict} (h : Within tag' tag) :
    Settles Content.TrimsTo (beforeTag tag) (beforeTag tag') := by
  cases h with
  | none => exact fun _ _ _ => rfl
  | some h =>
      exact (Trim.finish.settles.ite (h.allBefore ▸ id)).comp
        (Trim.padding.settles.ite h.lineBefore) (content_trimsTo_ite .padding _)
        Content.TrimsTo.trans

/-- The padding before a partial that stands alone is gone, so a later run finds
none to take as its indent. -/
theorem indentAfter_of_trimsTo {v' v : Verdict} (h : v'.Within v) {c d : Content}
    (hd : (beforeTag (some v) c).TrimsTo d) (indent : Text) :
    indentAfter v' d indent = indent := by
  have hfinish : (if v'.allBefore then d.trimEnd else d) = d :=
    (Trim.finish.settles.ite (h.allBefore ▸ id)) c d
      ((content_trimsTo_ite .padding v.lineBefore _).trans hd)
  have hbefore : beforeTag (some v') d = d := settles_beforeTag (.some h) c d hd
  unfold indentAfter
  simp only [hfinish]
  by_cases hv : v'.inlineAlone = true
  · have hpadding : d.trimPadding = d := by
      simpa [beforeTag, Verdict.lineBefore, hfinish, hv] using hbefore
    rcases Content.trimPadding_eq_self_iff.mp hpadding with hl | hvalue
    · simp [hl]
    · simp [hvalue]
  · simp [hv]

section

variable {v' v : Verdict} {program inverse : Option Program}

theorem settles_insideBody (h : v'.Within v) :
    Settles Program.TrimsTo (insideBody v) (insideBody v') :=
  ((settles_onBody (settles_onFirst Trim.line.settles)).ite h.openAlone).comp
    ((settles_onBody (settles_onLast Trim.padding.settles)).ite h.closeAlone)
    (trimsTo_ite (trimsTo_onBody (trimsTo_onLast (.single .padding))) _)
    Program.TrimsTo.trans

/-- Two sections of a block, trimmed one after the other. -/
abbrev Sections.TrimsTo (x y : Option Program × Option Program) : Prop :=
  Section.TrimsTo x.1 y.1 ∧ Section.TrimsTo x.2 y.2

theorem settles_openSection :
    Settles Sections.TrimsTo (fun x => openSection x.1 x.2) (fun x => openSection x.1 x.2) := by
  rintro ⟨program, inverse⟩ ⟨program', inverse'⟩ ⟨hp, hi⟩
  have hline := settles_onFirst Trim.line.settles
  cases program with
  | some p =>
      cases hp with
      | some hp => exact congrArg (fun q => (some q, inverse')) (settles_onBody hline p _ hp)
  | none =>
      cases hp with
      | none => exact congrArg (Prod.mk none) (settles_map_onBody hline inverse _ hi)

theorem settles_closeSection :
    Settles Sections.TrimsTo (fun x => closeSection x.1 x.2)
      (fun x => closeSection x.1 x.2) := by
  rintro ⟨program, inverse⟩ ⟨program', inverse'⟩ ⟨hp, hi⟩
  have hpadding := settles_onLast Trim.padding.settles
  cases inverse with
  | some p =>
      cases hi with
      | some hi => exact congrArg (fun q => (program', some q)) (settles_onBody hpadding p _ hi)
  | none =>
      cases hi with
      | none => exact congrArg (·, none) (settles_map_onBody hpadding program _ hp)

theorem settles_insideSections (h : v'.Within v) :
    Settles Sections.TrimsTo (fun x => insideSections v x.1 x.2)
      (fun x => insideSections v' x.1 x.2) :=
  (settles_openSection.ite h.openAlone).comp (settles_closeSection.ite h.closeAlone)
    (by
      rintro ⟨program, inverse⟩
      have hclose := trimsTo_closeSection program inverse
      show Sections.TrimsTo _ (if v.closeAlone then _ else _)
      split
      · exact hclose
      · exact ⟨Section.TrimsTo.refl _, Section.TrimsTo.refl _⟩)
    (fun hxy hyz => ⟨hxy.1.trans hyz.1, hxy.2.trans hyz.2⟩)

end

/-- A tag with its verdict carried out inside of it has nothing left to do for a
weaker one.  The text before it, if there is one, was trimmed at its end. -/
theorem finish_of_trimsTo {v' v : Verdict} (h : v'.Within v) {text text' : Option Content}
    {s t : Statement} (ht : (finish text v s).TrimsTo t)
    (htext : ∀ d, text' = some d → ∃ c, (beforeTag (some v) c).TrimsTo d) :
    finish text' v' t = t := by
  cases s with
  | inclusion node =>
      obtain ⟨node', rfl⟩ : ∃ node', t = .inclusion node' := by
        cases text <;> cases ht <;> exact ⟨_, rfl⟩
      cases text' with
      | none => rfl
      | some d =>
          obtain ⟨c, hd⟩ := htext d rfl
          show Statement.inclusion { node' with indent := indentAfter v' d node'.indent } = _
          rw [indentAfter_of_trimsTo h hd]
  | block node =>
      cases ht with
      | block _ hp hi =>
          exact congrArg (fun x => Statement.block ⟨_, x.1, x.2, _, _, _, _⟩)
            (settles_insideSections h (node.program, node.inverse) (_, _) ⟨hp, hi⟩)
  | decoratorBlock node =>
      cases ht with
      | decoratorBlock _ hp hi =>
          exact congrArg (fun x => Statement.decoratorBlock ⟨_, x.1, x.2, _, _, _, _⟩)
            (settles_insideSections h (node.program, node.inverse) (_, _) ⟨hp, hi⟩)
  | inclusionBlock node =>
      cases ht with
      | inclusionBlock _ hp =>
          exact congrArg (fun q => Statement.inclusionBlock ⟨_, q, _, _, _⟩)
            (settles_insideBody h node.program _ hp)
  | mustache _ | decorator _ | content _ | comment _ =>
      cases ht
      rfl

theorem finishWith_of_trimsTo {v' v : Option Verdict} (h : Within v' v)
    {text text' : Option Content} {s t : Statement} (ht : (finishWith text s v).TrimsTo t)
    (htext : ∀ d, text' = some d → ∃ c, (beforeTag v c).TrimsTo d) :
    finishWith text' t v' = t := by
  cases h with
  | none => rfl
  | some h => exact finish_of_trimsTo h ht htext

/-! ## A list of statements -/

/-- Some statements in the place of settled ones, with what those report. -/
def inPlaceOf (settled : List Settled) (body : List Statement) : List Settled :=
  List.zipWith (fun x s => (s, x.2)) settled body

section

variable {i i' root root' : Bool}

theorem inPlaceOf_map_fst {settled : List Settled} {body' : List Statement}
    (h : Body.TrimsTo (settled.map Prod.fst) body') :
    (inPlaceOf settled body').map Prod.fst = body' := by
  induction settled generalizing body' with
  | nil =>
      cases h with
      | nil => rfl
  | cons head rest ih =>
      obtain ⟨t, rest', rfl, -, hrest⟩ := Body.TrimsTo.cons_inv h
      exact congrArg (List.cons t) (ih hrest)

/-- The same tag in a later run. -/
theorem judge_map_within (hi : i' = false → i = false) (hroot : root' = true → root = true)
    {settled : List Settled} {before before' body' : List Statement}
    (hb : Body.TrimsTo before before') (hbody : Body.TrimsTo (settled.map Prod.fst) body')
    (f : Option Strip) :
    Within
      (f.map fun f => judge i' root' f before' ((inPlaceOf settled body').map Prod.fst))
      (f.map fun f => judge i root f before (settled.map Prod.fst)) := by
  rw [inPlaceOf_map_fst hbody]
  cases f with
  | none => exact .none
  | some f => exact .some (judge_within hi hroot hb hbody f)

theorem verdictAt_within (hi : i' = false → i = false) (hroot : root' = true → root = true)
    {settled : List Settled} {before before' body' : List Statement}
    (hb : Body.TrimsTo before before')
    (hbody : Body.TrimsTo (settled.map Prod.fst) body') :
    Within (verdictAt (judgeAll i' root' before' (inPlaceOf settled body')))
      (verdictAt (judgeAll i root before settled)) := by
  cases settled with
  | nil =>
      cases hbody with
      | nil => exact .none
  | cons head rest =>
      obtain ⟨t, rest', rfl, -, hrest⟩ := Body.TrimsTo.cons_inv hbody
      exact judge_map_within hi hroot hb hrest head.2

/-- What came out of the third step stays, with tags that ask for less and the
text before the list trimmed at its end. -/
theorem align_of_trimsTo (hi : i' = false → i = false) (hroot : root' = true → root = true)
    (settled : List Settled) (hsettled : ∀ c f, (.content c, f) ∈ settled → f = none)
    {before before' body' : List Statement} {tag tag' : Option Verdict}
    (text text' : Option Content) (hb : Body.TrimsTo before before') (htag : Within tag' tag)
    (htext : ∀ d, text' = some d → ∃ c,
      (beforeTag (verdictAt (judgeAll i root before settled)) c).TrimsTo d)
    (hbody : Body.TrimsTo (align tag text (judgeAll i root before settled)) body') :
    align tag' text' (judgeAll i' root' before' (inPlaceOf settled body')) = body' := by
  induction settled generalizing before before' body' tag tag' text text' with
  | nil =>
      cases hbody with
      | nil => rfl
  | cons head rest ih =>
      obtain ⟨s, f⟩ := head
      have hsettled' : ∀ c f, (.content c, f) ∈ rest → f = none :=
        fun c f h => hsettled c f (List.mem_cons_of_mem _ h)
      rcases s.content_or_ne with ⟨c, rfl⟩ | hs
      · obtain rfl : f = none := hsettled c f List.mem_cons_self
        obtain ⟨t, rest', rfl, ht, hrest⟩ := Body.TrimsTo.cons_inv hbody
        have hmap := (trimsTo_align _ _ _).trans hrest
        rw [judgeAll_map_fst] at hmap
        cases ht with
        | @content _ d hd =>
            have hstart : afterTag tag' d = d :=
              settles_afterTag htag c d ((trimsTo_beforeTag _ _).trans hd)
            have hb' : Body.TrimsTo (.content c :: before) (.content d :: before') :=
              .cons (.content ((trimsTo_afterTag tag c).trans
                ((trimsTo_beforeTag _ _).trans hd))) hb
            have hend := settles_beforeTag (verdictAt_within hi hroot hb' hmap) _ d hd
            have hlist := ih hsettled' _ (some d) hb' .none
              (fun e he => ⟨_, Option.some.inj he ▸ hd⟩) hrest
            show Statement.content (beforeTag (verdictAt (judgeAll i' root' (.content d :: before')
                (inPlaceOf rest rest'))) (afterTag tag' d)) ::
              align none (some (afterTag tag' d)) _ = _
            rw [hstart, hend]
            exact congrArg (List.cons _) hlist
      · rw [judgeAll, align_cons_of_ne hs] at hbody
        obtain ⟨t, rest', rfl, ht, hrest⟩ := Body.TrimsTo.cons_inv hbody
        have hmap := (trimsTo_align _ _ _).trans hrest
        rw [judgeAll_map_fst] at hmap
        have hwithin := judge_map_within hi hroot hb hmap f
        have hne : ∀ c, t ≠ .content c := ht.ne_content (finishWith_of_ne hs text _)
        have hb' : Body.TrimsTo (s :: before) (t :: before') :=
          .cons ((trimsTo_finishWith text s _).trans ht) hb
        have hlist := ih hsettled' _ none hb' hwithin (fun _ he => nomatch he) hrest
        show align tag' text' (judgeAll i' root' before' ((t, f) :: inPlaceOf rest rest')) = _
        rw [judgeAll, align_cons_of_ne hne, hlist, finishWith_of_trimsTo hwithin ht htext]

end

/-! ## The pass -/

section

variable {i i' : Bool}

theorem trimSections_of_trimsTo (hi : i' = false → i = false) (opening middle closing : Strip)
    {p p' : Program} {inverse inverse' : Option Program}
    (hp : (trimSections i opening middle closing p inverse).1.TrimsTo p')
    (hinverse : Section.TrimsTo (trimSections i opening middle closing p inverse).2.1 inverse') :
    trimSections i' opening middle closing p' inverse' =
      (p', inverse', (trimSections i opening middle closing p inverse).2.2) := by
  have htrims := trimsTo_trimSections i opening middle closing p inverse
  have hreport := report_of_trimsTo (htrims.1.trans hp) (htrims.2.trans hinverse) opening closing
  cases inverse with
  | none =>
      cases hinverse with
      | none =>
          have hmain : trimMain opening closing false p' = p' :=
            settles_trimMain opening closing id p p' hp
          show (trimMain opening closing false p', none, report opening closing p' none) = _
          rw [hmain, hreport]
          rfl
  | some q =>
      cases hinverse with
      | @some _ q' hq =>
          have halone : (!i' && elseAlone p' q') = true → (!i && elseAlone p q) = true := by
            rw [elseAlone_of_trimsTo (htrims.1.trans hp) ((trimsTo_trimElse _ _ _ q).trans hq)]
            cases i' with
            | true => exact fun h => nomatch h
            | false => rw [hi rfl]; exact id
          have hmain := settles_trimMain opening middle halone p p' hp
          have helse := settles_trimElse middle closing halone q q' hq
          show (trimMain opening middle (!i' && elseAlone p' q') p',
            some (trimElse middle closing (!i' && elseAlone p' q') q'),
            report opening closing p' (some q')) = _
          rw [hmain, helse, hreport]
          rfl

theorem trimBlock_of_trimsTo (hi : i' = false → i = false) (opening middle closing : Strip)
    {program program' inverse inverse' : Option Program}
    (hp : Section.TrimsTo (trimBlock i opening middle closing program inverse).1 program')
    (hinverse : Section.TrimsTo (trimBlock i opening middle closing program inverse).2.1
      inverse') :
    trimBlock i' opening middle closing program' inverse' =
      (program', inverse', (trimBlock i opening middle closing program inverse).2.2) := by
  cases program with
  | some p =>
      cases hp with
      | @some _ p' hp =>
          have h := trimSections_of_trimsTo hi opening middle closing hp hinverse
          exact congrArg (fun x => (some x.1, x.2.1, x.2.2)) h
  | none =>
      cases inverse with
      | none =>
          cases hp with
          | none =>
              cases hinverse with
              | none => rfl
      | some q =>
          cases hp with
          | none =>
              cases hinverse with
              | @some _ q' hq =>
                  have hmain : (trimSections i opening middle closing q none).1.TrimsTo q' := hq
                  have h := trimSections_of_trimsTo hi opening middle closing hmain .none
                  exact congrArg (fun x => (none, some x.1, x.2.2)) h

theorem settleAll_content {c : Content} {f : Option Strip} : ∀ {body : List Statement},
    (.content c, f) ∈ settleAll i body → f = none
  | s :: rest, h => by
      rcases List.mem_cons.mp h with hs | hrest
      · rcases s.content_or_ne with ⟨d, rfl⟩ | hne
        · exact congrArg Prod.snd hs
        · obtain ⟨s', strip, hsettle, hs'⟩ := settle_of_ne i hne
          rw [hsettle] at hs
          exact absurd (congrArg Prod.fst hs).symm (hs' c)
      · exact settleAll_content hrest

mutual

/-- What came out of a run stays in a later run that trims no more. -/
theorem program_of_trimsTo (hi : i' = false → i = false) {root root' : Bool}
    (hroot : root' = true → root = true) : ∀ {p q : Program},
    (program i root p).TrimsTo q → program i' root' q = q
  | ⟨body, _, _, _⟩, _, .mk _ hb => by
      have hmap := (trimsTo_align _ _ _).trans hb
      rw [judgeAll_map_fst] at hmap
      have halign := align_of_trimsTo hi hroot (settleAll i body) (fun _ _ => settleAll_content)
        none none .nil .none (fun _ he => nomatch he) hb
      show Program.mk (align none none (judgeAll i' root' [] (settleAll i' _))) _ _ _ = _
      rw [settleAll_of_trimsTo hi hmap, halign]

theorem settleAll_of_trimsTo (hi : i' = false → i = false) :
    ∀ {body body' : List Statement}, Body.TrimsTo ((settleAll i body).map Prod.fst) body' →
      settleAll i' body' = inPlaceOf (settleAll i body) body'
  | [], _, .nil => rfl
  | s :: rest, _, .cons hs hb => by
      rw [settleAll, settle_of_trimsTo hi hs, settleAll_of_trimsTo hi hb]
      rfl

theorem settle_of_trimsTo (hi : i' = false → i = false) : ∀ {s t : Statement},
    (settle i s).1.TrimsTo t → settle i' t = (t, (settle i s).2)
  | .mustache _, _, .mustache _ => rfl
  | .decorator _, _, .decorator _ => rfl
  | .inclusion _, _, .inclusion _ _ => rfl
  | .comment _, _, .comment _ => rfl
  | .content _, _, .content _ => rfl
  | .block ⟨call, main, inverse, opening, middle, closing, loc⟩, _, h => by
      cases h with
      | @block _ main' inverse' hp hinverse =>
          have htrims :=
            trimsTo_trimBlock i opening middle closing (bodyOf i main) (bodyOf i inverse)
          have hmain := bodyOf_of_trimsTo hi (htrims.1.trans hp)
          have hinv := bodyOf_of_trimsTo hi (htrims.2.trans hinverse)
          have hblock := trimBlock_of_trimsTo hi opening middle closing hp hinverse
          simp only [settle, hmain, hinv, hblock]
  | .decoratorBlock ⟨call, main, inverse, opening, middle, closing, loc⟩, _, h => by
      cases h with
      | @decoratorBlock _ main' inverse' hp hinverse =>
          have htrims :=
            trimsTo_trimBlock i opening middle closing (bodyOf i main) (bodyOf i inverse)
          have hmain := bodyOf_of_trimsTo hi (htrims.1.trans hp)
          have hinv := bodyOf_of_trimsTo hi (htrims.2.trans hinverse)
          have hblock := trimBlock_of_trimsTo hi opening middle closing hp hinverse
          simp only [settle, hmain, hinv, hblock]
  | .inclusionBlock ⟨call, main, opening, closing, loc⟩, _, h => by
      cases h with
      | @inclusionBlock _ main' hp =>
          have hp : (trimSections i opening {} closing (program i false main) none).1.TrimsTo
            main' := hp
          have htrims := trimsTo_trimSections i opening {} closing (program i false main) none
          have hmain := program_of_trimsTo hi (fun h => h) (htrims.1.trans hp)
          have hblock := trimSections_of_trimsTo hi opening {} closing hp .none
          simp only [settle, hmain, hblock]

theorem bodyOf_of_trimsTo (hi : i' = false → i = false) : ∀ {p q : Option Program},
    Section.TrimsTo (bodyOf i p) q → bodyOf i' q = q
  | none, _, .none => rfl
  | some p, _, .some h => congrArg some (program_of_trimsTo hi (fun h => h) h)

end

end

/-- A run of a new control settles the tree for every control that keeps more
padding, or as much. -/
theorem Control.normalize_eq_self {a : Bool} {c : Control}
    (hc : c.ignoreStandalone = a ∨ c.ignoreStandalone = true) (p : Program) :
    (c.normalize (({ ignoreStandalone := a } : Control).normalize p).1).1 =
      (({ ignoreStandalone := a } : Control).normalize p).1 := by
  refine program_of_trimsTo ?_ (fun _ => rfl) (Program.TrimsTo.refl _)
  intro hfalse
  rcases hc with hc | hc
  · exact hc.symm.trans hfalse
  · rw [hfalse] at hc
    cases hc

/-- After one run of a new control, every run with the same option, or with the
padding around lone tags kept, leaves the whole tree as it is.  It does not
matter how many runs there are, nor whether their controls are new. -/
theorem Control.foldl_normalize (a : Bool) (p : Program) (later : List Control)
    (hlater : ∀ c ∈ later, c.ignoreStandalone = a ∨ c.ignoreStandalone = true) :
    later.foldl (fun q c => (c.normalize q).1)
        (({ ignoreStandalone := a } : Control).normalize p).1 =
      (({ ignoreStandalone := a } : Control).normalize p).1 := by
  induction later with
  | nil => rfl
  | cons c later ih =>
      rw [List.foldl_cons, normalize_eq_self (hlater c List.mem_cons_self)]
      exact ih fun d hd => hlater d (List.mem_cons_of_mem c hd)

/-- A comment alone on its line, run over by its own control again and then by a
new one that keeps padding. -/
theorem Control.foldl_normalize_comment :
    let loc : Location := ⟨none, ⟨1, 0⟩, ⟨1, 0⟩⟩
    let p : Program :=
      ⟨[.content (.untrimmed "  ".toList loc), .comment ⟨"note".toList, {}, loc⟩,
        .content (.untrimmed " \nb".toList loc)], none, false, none⟩
    [({ ignoreStandalone := false, rootSeen := true } : Control),
        { ignoreStandalone := true }].foldl (fun q c => (c.normalize q).1)
        (({ ignoreStandalone := false } : Control).normalize p).1 =
      (({ ignoreStandalone := false } : Control).normalize p).1 :=
  foldl_normalize false _ _ (by decide)

end Layout
end Stache
