import Stache.Proofs.Layout.Frame

/-!
# Steps that settle

A step settles another if, once it was made, the other one has nothing left to
do, whatever trims were made in between.  A trim settles itself, and so does a
step made of trims: the change at an end of a list, in a section, along a chain,
or around a tag.  Steps made one after another settle step by step, and a step
under a condition settles the same step under a stronger one.
-/

namespace Stache

/-- After `g`, the step `h` changes nothing, as long as only `R` happens in
between. -/
def Settles {α : Type} (R : α → α → Prop) (g h : α → α) : Prop :=
  ∀ x y : α, R (g x) y → h y = y

namespace Settles

variable {α : Type} {R : α → α → Prop} {g g' h h' : α → α}

/-- Steps one after another, where the later one does no more than `R`. -/
theorem comp (hgh : Settles R g h) (hgh' : Settles R g' h') (hR : ∀ x, R x (g' x))
    (htrans : ∀ {x y z}, R x y → R y z → R x z) :
    Settles R (fun x => g' (g x)) (fun x => h' (h x)) := by
  intro x y hxy
  have hy : h y = y := hgh x y (htrans (hR (g x)) hxy)
  show h' (h y) = y
  rw [hy]
  exact hgh' (g x) y hxy

/-- A step under a condition. -/
theorem ite {b b' : Bool} (hgh : Settles R g h) (hb : b' = true → b = true) :
    Settles R (fun x => if b then g x else x) (fun y => if b' then h y else y) := by
  intro x y hxy
  cases b' with
  | false => rfl
  | true =>
      rw [hb rfl] at hxy
      exact hgh x y hxy

end Settles

/-- Every trim settles itself. -/
theorem Trim.settles (t : Trim) : Settles Content.TrimsTo t.apply t.apply :=
  fun _ _ h => h.settled

/-! ## Alike parts of alike trees -/

/-- What trims lead to starts with what the first statement is trimmed to. -/
theorem Body.TrimsTo.cons_inv {s : Statement} {body body' : List Statement}
    (h : Body.TrimsTo (s :: body) body') :
    ∃ t rest, body' = t :: rest ∧ s.TrimsTo t ∧ Body.TrimsTo body rest := by
  cases h with
  | cons hs hb => exact ⟨_, _, rfl, hs, hb⟩

theorem Program.TrimsTo.inv {p q : Program} (h : p.TrimsTo q) :
    q = { p with body := q.body } ∧ Body.TrimsTo p.body q.body := by
  cases h with
  | mk p h => exact ⟨rfl, h⟩

/-- Trims do not change whether a section is a link. -/
theorem Program.TrimsTo.chained_eq {p q : Program} (h : p.TrimsTo q) :
    q.chained = p.chained := by
  cases h with
  | mk p h => rfl

/-- A tag is alike to tags only. -/
theorem Statement.Alike.ne_content {R : Content → Content → Prop} {s t : Statement}
    (h : s.Alike R t) (hs : ∀ c, s ≠ .content c) : ∀ c, t ≠ .content c := by
  cases h with
  | content => exact absurd rfl (hs _)
  | _ => exact fun _ h => Statement.noConfusion h

namespace Layout

/-! ## The ends of a list -/

section

variable {f g : Content → Content}

/-- If a second trim of a text finds nothing to do, nor does one of the first text. -/
theorem settles_onFirst (h : Settles Content.TrimsTo f g) :
    Settles Body.TrimsTo (onFirst f) (onFirst g) := by
  intro body body' hb
  cases body with
  | nil =>
      cases hb with
      | nil => rfl
  | cons s rest =>
      rcases s.content_or_ne with ⟨c, rfl⟩ | hs
      · obtain ⟨t, rest', rfl, ht, -⟩ := Body.TrimsTo.cons_inv hb
        cases ht with
        | content hc =>
            show Statement.content (g _) :: rest' = _
            rw [h c _ hc]
      · rw [onFirst_cons_of_ne f hs] at hb
        obtain ⟨t, rest', rfl, ht, -⟩ := Body.TrimsTo.cons_inv hb
        exact onFirst_cons_of_ne g (ht.ne_content hs) rest'

/-- A trim of the last text leaves a list with a first statement. -/
theorem exists_onLast_cons (f : Content → Content) (s : Statement) :
    ∀ rest : List Statement, ∃ t body, onLast f (s :: rest) = t :: body := by
  intro rest
  cases rest with
  | nil => cases s <;> exact ⟨_, _, rfl⟩
  | cons s' rest => exact ⟨_, _, onLast_cons_cons f s s' rest⟩

/-- If a second trim of a text finds nothing to do, nor does one of the last text. -/
theorem settles_onLast (h : Settles Content.TrimsTo f g) :
    Settles Body.TrimsTo (onLast f) (onLast g)
  | [], _, .nil => rfl
  | [s], body', hb => by
      rcases s.content_or_ne with ⟨c, rfl⟩ | hs
      · obtain ⟨t, rest', rfl, ht, hrest⟩ := Body.TrimsTo.cons_inv hb
        cases hrest with
        | nil =>
            cases ht with
            | content hc =>
                show [Statement.content (g _)] = _
                rw [h c _ hc]
      · rw [onLast_singleton_of_ne f hs] at hb
        obtain ⟨t, rest', rfl, ht, hrest⟩ := Body.TrimsTo.cons_inv hb
        cases hrest with
        | nil => exact onLast_singleton_of_ne g (ht.ne_content hs)
  | s :: s' :: rest, body', hb => by
      rw [onLast_cons_cons] at hb
      obtain ⟨t, rest', rfl, ht, hrest⟩ := Body.TrimsTo.cons_inv hb
      have ih := settles_onLast h (s' :: rest) rest' hrest
      obtain ⟨u, us, hu⟩ := exists_onLast_cons f s' rest
      rw [hu] at hrest
      obtain ⟨t', rest', rfl, -, -⟩ := Body.TrimsTo.cons_inv hrest
      rw [onLast_cons_cons, ih]

end

/-! ## Sections -/

section

variable {f g : List Statement → List Statement}

/-- What settles the statements settles the section. -/
theorem settles_onBody (h : Settles Body.TrimsTo f g) :
    Settles Program.TrimsTo (onBody f) (onBody g) := by
  rintro p ⟨body, blockParams, chained, loc⟩ hpq
  obtain ⟨-, hb⟩ := hpq.inv
  show Program.mk (g body) blockParams chained loc = _
  rw [h p.body body hb]

theorem settles_map_onBody (h : Settles Body.TrimsTo f g) :
    Settles Section.TrimsTo (Option.map (onBody f)) (Option.map (onBody g)) := by
  intro p q hpq
  cases p with
  | none =>
      cases hpq with
      | none => rfl
  | some p =>
      cases hpq with
      | some hpq => exact congrArg some (settles_onBody h p _ hpq)

/-- What settles a body settles the first section of a chain. -/
theorem settles_onFirstSection (h : Settles Body.TrimsTo f g) :
    Settles Program.TrimsTo (onFirstSection f) (onFirstSection g) := by
  rintro ⟨body, blockParams, chained, loc⟩ ⟨body', blockParams', chained', loc'⟩ hpq
  cases chained with
  | false =>
      obtain rfl : chained' = false := hpq.chained_eq
      exact settles_onBody h _ _ hpq
  | true =>
      cases body with
      | nil =>
          cases hpq with
          | mk _ hb =>
              cases hb with
              | nil => rfl
      | cons s rest =>
          cases s with
          | block b =>
              cases hpq with
              | mk _ hb =>
                  obtain ⟨t, rest', rfl, ht, -⟩ := Body.TrimsTo.cons_inv hb
                  cases ht with
                  | block _ hp _ =>
                      exact congrArg (fun p => Program.mk (.block ⟨_, p, _, _, _, _, _⟩ :: _) _ _ _)
                        (settles_map_onBody h b.program _ hp)
          | decoratorBlock b =>
              cases hpq with
              | mk _ hb =>
                  obtain ⟨t, rest', rfl, ht, -⟩ := Body.TrimsTo.cons_inv hb
                  cases ht with
                  | decoratorBlock _ hp _ =>
                      exact congrArg
                        (fun p => Program.mk (.decoratorBlock ⟨_, p, _, _, _, _, _⟩ :: _) _ _ _)
                        (settles_map_onBody h b.program _ hp)
          | _ =>
              cases hpq with
              | mk _ hb =>
                  obtain ⟨t, rest', rfl, ht, -⟩ := Body.TrimsTo.cons_inv hb
                  cases ht
                  rfl

theorem exists_onLastBlock_cons (f : List Statement → List Statement) (s : Statement) :
    ∀ rest : List Statement, ∃ t body, onLastBlock f (s :: rest) = t :: body := by
  intro rest
  cases rest <;> exact ⟨_, _, rfl⟩

mutual

/-- What settles a body settles the last section of a chain. -/
theorem settles_onLastSection (h : Settles Body.TrimsTo f g) :
    ∀ p q : Program, (onLastSection f p).TrimsTo q → onLastSection g q = q
  | ⟨body, blockParams, chained, loc⟩, ⟨body', blockParams', chained', loc'⟩, hpq => by
      obtain rfl : chained' = chained := hpq.chained_eq
      obtain ⟨-, hb⟩ := hpq.inv
      cases chained' with
      | true =>
          show Program.mk (onLastBlock g body') _ _ _ = _
          rw [settles_onLastBlock h body body' hb]
      | false =>
          show Program.mk (g body') _ _ _ = _
          rw [h body body' hb]

theorem settles_onLastBlock (h : Settles Body.TrimsTo f g) :
    ∀ body body' : List Statement, Body.TrimsTo (onLastBlock f body) body' →
      onLastBlock g body' = body'
  | [], _, .nil => rfl
  | [s], _, hb => by
      obtain ⟨t, rest', rfl, ht, hrest⟩ := Body.TrimsTo.cons_inv hb
      cases hrest with
      | nil =>
          show [onBlockSection g t] = [t]
          rw [settles_onBlockSection h s t ht]
  | s :: s' :: rest, _, hb => by
      obtain ⟨t, rest', rfl, -, hrest⟩ := Body.TrimsTo.cons_inv hb
      have ih := settles_onLastBlock h (s' :: rest) rest' hrest
      obtain ⟨u, us, hu⟩ := exists_onLastBlock_cons f s' rest
      rw [hu] at hrest
      obtain ⟨t', rest', rfl, -, -⟩ := Body.TrimsTo.cons_inv hrest
      show t :: onLastBlock g (t' :: rest') = _
      rw [ih]

theorem settles_onBlockSection (h : Settles Body.TrimsTo f g) :
    ∀ s t : Statement, (onBlockSection f s).TrimsTo t → onBlockSection g t = t
  | .block ⟨call, program, inverse, opening, middle, closing, loc⟩, _, .block _ hp _ => by
      show Statement.block ⟨call, onSection g _, _, opening, middle, closing, loc⟩ = _
      rw [settles_onSection h program _ hp]
  | .decoratorBlock ⟨call, program, inverse, opening, middle, closing, loc⟩, _,
      .decoratorBlock _ hp _ => by
      show Statement.decoratorBlock ⟨call, onSection g _, _, opening, middle, closing, loc⟩ = _
      rw [settles_onSection h program _ hp]
  | .mustache _, _, .mustache _ => rfl
  | .decorator _, _, .decorator _ => rfl
  | .inclusion _, _, .inclusion _ _ => rfl
  | .inclusionBlock _, _, .inclusionBlock _ _ => rfl
  | .content _, _, .content _ => rfl
  | .comment _, _, .comment _ => rfl

theorem settles_onSection (h : Settles Body.TrimsTo f g) :
    ∀ p q : Option Program, Section.TrimsTo (onSection f p) q → onSection g q = q
  | none, _, .none => rfl
  | some p, _, .some hpq => congrArg some (settles_onLastSection h p _ hpq)

end

end

/-! ## The tags inside a block -/

section

variable {f g : Content → Content} {alone alone' : Bool}

/-- The tags around the main section trim it once, even if they stand alone no more. -/
theorem settles_trimMain (opening ender : Strip) (h : alone' = true → alone = true) :
    Settles Program.TrimsTo (trimMain opening ender alone) (trimMain opening ender alone') :=
  (((settles_onBody (settles_onFirst Trim.start.settles)).ite id).comp
      ((settles_onBody (settles_onLast Trim.finish.settles)).ite id)
      (trimsTo_ite (trimsTo_onBody (trimsTo_onLast (.single .finish))) _)
      Program.TrimsTo.trans).comp
    ((settles_onBody (settles_onLast Trim.padding.settles)).ite h)
    (trimsTo_ite (trimsTo_onBody (trimsTo_onLast (.single .padding))) _)
    Program.TrimsTo.trans

/-- The tags around an else section trim it once, even if they stand alone no more. -/
theorem settles_trimElse (middle closing : Strip) (h : alone' = true → alone = true) :
    Settles Program.TrimsTo (trimElse middle closing alone) (trimElse middle closing alone') :=
  (((settles_onFirstSection (settles_onFirst Trim.start.settles)).ite id).comp
      (Settles.ite (settles_onLastSection (settles_onLast Trim.finish.settles)) id)
      (trimsTo_ite (trimsTo_onLastSection (trimsTo_onLast (.single .finish))) _)
      Program.TrimsTo.trans).comp
    ((settles_onFirstSection (settles_onFirst Trim.line.settles)).ite h)
    (trimsTo_ite (trimsTo_onFirstSection (trimsTo_onFirst (.single .line))) _)
    Program.TrimsTo.trans

end

/-- The first sections behind an else tag are alike, or both missing. -/
theorem firstSection?_of_trimsTo {p q : Program} (h : p.TrimsTo q) :
    (firstSection? p = none ∧ firstSection? q = none) ∨
      ∃ body body', firstSection? p = some body ∧ firstSection? q = some body' ∧
        Body.TrimsTo body body' := by
  obtain ⟨body, blockParams, chained, loc⟩ := p
  cases h with
  | mk _ hb =>
      cases chained with
      | false => exact .inr ⟨_, _, rfl, rfl, hb⟩
      | true =>
          cases hb with
          | nil => exact .inl ⟨rfl, rfl⟩
          | cons hs _ =>
              cases hs with
              | block b hp _ | decoratorBlock b hp _ =>
                  obtain ⟨call, program, inverse, opening, middle, closing, loc⟩ := b
                  cases hp with
                  | none => exact .inl ⟨rfl, rfl⟩
                  | some hp => exact .inr ⟨_, _, rfl, rfl, (Program.TrimsTo.inv hp).2⟩
              | _ => exact .inl ⟨rfl, rfl⟩

/-- Whether an else tag stands alone is read off the texts as they were written. -/
theorem elseAlone_of_trimsTo {p p' q q' : Program} (hp : p.TrimsTo p') (hq : q.TrimsTo q') :
    elseAlone p' q' = elseAlone p q := by
  unfold elseAlone
  rw [lineEnds_of_trimsTo hp.inv.2.reverse]
  rcases firstSection?_of_trimsTo hq with ⟨hn, hn'⟩ | ⟨body, body', hs, hs', hb⟩
  · rw [hn, hn']
  · rw [hs, hs', Option.any_some, Option.any_some, lineStarts_of_trimsTo hb]

/-- What a block reports is read off the texts as they were written. -/
theorem report_of_trimsTo {p p' : Program} {inverse inverse' : Option Program}
    (hp : p.TrimsTo p') (hi : Section.TrimsTo inverse inverse') (opening closing : Strip) :
    report opening closing p' inverse' = report opening closing p inverse := by
  have hlast : Body.TrimsTo ((inverse.bind firstSection?).getD p.body)
      ((inverse'.bind firstSection?).getD p'.body) := by
    cases hi with
    | none => exact hp.inv.2
    | some hq =>
        rw [Option.bind_some, Option.bind_some]
        rcases firstSection?_of_trimsTo hq with ⟨hn, hn'⟩ | ⟨body, body', hs, hs', hb⟩
        · rw [hn, hn']
          exact hp.inv.2
        · rw [hs, hs']
          exact hb
  simp only [report, lineStarts_of_trimsTo hp.inv.2, lineEnds_of_trimsTo hlast.reverse]

/-! ## Reports on what is written -/

/-- What a block reports, read off its sections as they are written. -/
def reportSections (opening closing : Strip) (main inverse : Option Program) : Strip :=
  match main, inverse with
  | some p, inverse => report opening closing p inverse
  | none, some q => report opening closing q none
  | none, none => { before := opening.before, after := closing.after }

/-- What a statement reports, read off the tree as it is written. -/
def reportOf : Statement → Option Strip
  | .mustache node | .decorator node => some node.strip
  | .inclusion node => some (inlineStrip node.strip)
  | .comment node => some (inlineStrip node.strip)
  | .content _ => none
  | .block ⟨_, main, inverse, opening, _, closing, _⟩
  | .decoratorBlock ⟨_, main, inverse, opening, _, closing, _⟩ =>
      some (reportSections opening closing main inverse)
  | .inclusionBlock ⟨_, main, opening, closing, _⟩ => some (report opening closing main none)

/-- A block reports the same before and after the pass went through its sections. -/
theorem trimBlock_report (i : Bool) (opening middle closing : Strip) (main inverse : Option Program) :
    (trimBlock i opening middle closing (bodyOf i main) (bodyOf i inverse)).2.2 =
      reportSections opening closing main inverse := by
  cases main with
  | some p =>
      rw [reportSections, ← report_of_trimsTo (trimsTo_program i false p) (trimsTo_bodyOf i inverse)]
      cases inverse <;> rfl
  | none =>
      cases inverse with
      | some q =>
          rw [reportSections, ← report_of_trimsTo (trimsTo_program i false q) .none]
          rfl
      | none => rfl

/-- The pass decides which tags may stand alone by the texts as they are
written. -/
theorem settle_report (i : Bool) (s : Statement) : (settle i s).2 = reportOf s := by
  cases s with
  | mustache _ | decorator _ | inclusion _ | content _ | comment _ => rfl
  | block node | decoratorBlock node =>
      obtain ⟨call, main, inverse, opening, middle, closing, loc⟩ := node
      exact congrArg some (trimBlock_report i opening middle closing main inverse)
  | inclusionBlock node =>
      obtain ⟨call, main, opening, closing, loc⟩ := node
      rw [reportOf, ← report_of_trimsTo (trimsTo_program i false main) .none]
      rfl

end Layout
end Stache
