import Stache.Proofs.Layout.Pieces
import Stache.Proofs.Layout.Settle

/-!
# The pass cuts texts between tags

The trims that the pass makes at different depths and at different times come to
one cut at each end of each text, and the cut is that of the tag which stands
there (`cutBody_program`).

The proof goes through the tree with the pass.  At each level the outer ends of
a section are not cut yet, and the tags around it add their cuts one by one.
-/

namespace Stache
namespace Layout

variable {i : Bool} {chains : Bool}

/-! ## Between neighbours -/

/-- The cut before a tag that may be missing. -/
def tagBefore : Option Verdict → Cut
  | none => .none
  | some v => v.before

/-- The cut behind a tag that may be missing. -/
def tagAfter : Option Verdict → Cut
  | none => .none
  | some v => v.after

theorem cutTo_afterTag (tag : Option Verdict) {e : Cut} {c d : Content}
    (h : c.CutTo .none e d) : c.CutTo (tagAfter tag) e (afterTag tag d) := by
  cases tag with
  | none => exact h
  | some v =>
      have hcut := (h.trimStart_ite v.allAfter).trimLine_ite v.lineAfter
      rw [Cut.none_join, Cut.of_join_of, Bool.or_false, Bool.false_or] at hcut
      exact hcut

theorem cutTo_beforeTag (tag : Option Verdict) {s : Cut} {c d : Content}
    (h : c.CutTo s .none d) : c.CutTo s (tagBefore tag) (beforeTag tag d) := by
  cases tag with
  | none => exact h
  | some v =>
      have hcut := (h.trimEnd_ite v.allBefore).trimPadding_ite v.lineBefore
      rw [Cut.none_join, Cut.of_join_of, Bool.or_false, Bool.false_or] at hcut
      exact hcut

/-! ## The outer tags of a statement -/

theorem lastCut_concat_tag (s before after : Cut) (ds : List Piece) :
    lastCut s (ds ++ [.tag before after]) = after := by
  rw [lastCut_append]
  rfl

theorem lastCut_ofInverse : ∀ {m : Bool} {inverse : Option Program},
    Section.RawInverse chains m inverse →
    ∀ {middle closing : Strip} {marked alone : Bool} {after : Cut} {main : Option Program},
      main.isSome = m → ∀ s : Cut,
      lastCut s (Piece.ofInverse i middle closing marked alone after main inverse) = after
  | _, _, .none, _, _, _, _, _, _, _, _ => rfl
  | _, _, .plain _, _, _, _, _, _, none, _, _ => lastCut_concat_tag _ _ _ _
  | _, _, .plain _, _, _, _, _, _, some _, _, _ => lastCut_concat_tag _ _ _ (_ :: _)
  | _, _, .link _ _ _ hinverse, _, _, _, _, _, some _, _, s => by
      show lastCut _ (_ ++ _) = _
      rw [lastCut_append]
      exact lastCut_ofInverse hinverse rfl _

/-- A statement that is no text starts with the cut before it and ends with the
cut behind it. -/
theorem ofStatement_of_ne (v : Verdict) {s : Statement} (hs : ∀ c, s ≠ .content c)
    (h : Statement.Raw chains s) :
    ∃ a ds, Piece.ofStatement i v s = .tag v.before a :: ds ∧ lastCut a ds = v.after := by
  cases h with
  | content => exact absurd rfl (hs _)
  | mustache _ | decorator _ | inclusion _ | comment _ => exact ⟨_, _, rfl, rfl⟩
  | block _ _ hinverse | decoratorBlock _ _ hinverse =>
      refine ⟨_, _, rfl, ?_⟩
      rw [lastCut_append]
      exact lastCut_ofInverse hinverse rfl _
  | inclusionBlock _ _ => exact ⟨_, _, rfl, lastCut_concat_tag _ _ _ _⟩

/-- The cut at the end of a main section. -/
theorem headCut_ofInverse (middle closing : Strip) (marked alone : Bool) (after e : Cut)
    (p : Program) {inverse : Option Program} (h : Section.RawInverse chains true inverse) :
    headCut e (Piece.ofInverse i middle closing marked alone after (some p) inverse) =
      match inverse with
      | none => .of (closing.before || marked) alone
      | some q => .of (middle.before || marked) (!i && elseAlone p q) := by
  cases h with
  | none => rfl
  | plain _ => rfl
  | link _ _ _ _ => rfl

/-! ## Sections of a block -/

/-- The else section of a block with the main section `p`, normalized and trimmed
at the tags inside the block. -/
def elseOf (i : Bool) (middle closing : Strip) (p : Program) : Option Program → Option Program
  | none => none
  | some q => some (trimElse middle closing (!i && elseAlone p q) (program i false q))

/-- An else section before a closing tag that may stand alone. -/
def closeElse (alone : Bool) (inverse : Option Program) : Option Program :=
  if alone then inverse.map (onBody (onLast Content.trimPadding)) else inverse

/-- The main section `p` of a block, normalized and trimmed at the tags inside
the block. -/
def mainOf (i : Bool) (opening middle closing : Strip) (p : Program) : Option Program → Program
  | none => trimMain opening closing false (program i false p)
  | some q => trimMain opening middle (!i && elseAlone p q) (program i false p)

theorem trimBlock_some (opening middle closing : Strip) (p : Program)
    (inverse : Option Program) :
    trimBlock i opening middle closing (bodyOf i (some p)) (bodyOf i inverse) =
      (some (mainOf i opening middle closing p inverse), elseOf i middle closing p inverse,
        report opening closing (program i false p) (bodyOf i inverse)) := by
  cases inverse with
  | none => rfl
  | some q =>
      have halone : elseAlone (program i false p) (program i false q) = elseAlone p q :=
        elseAlone_of_trimsTo (trimsTo_program i false p) (trimsTo_program i false q)
      simp only [mainOf, elseOf, ← halone]
      rfl

section

variable {dss : List (List Piece)} {p q : Program}

theorem cutBody_trimMain (opening ender : Strip) (alone : Bool)
    (h : CutBody .none dss .none p.body) :
    CutBody (.of opening.after false) dss (.of ender.before alone)
      (trimMain opening ender alone p).body := by
  have hcut := cutBody_trimPadding alone
    (cutBody_trimEnd ender.before (cutBody_trimStart opening.after h))
  rw [Cut.none_join, Cut.none_join, Cut.of_join_of, Bool.or_false, Bool.false_or] at hcut
  exact hcut

theorem onLastSection_of_not_chained {f : List Statement → List Statement} :
    ∀ {q : Program}, q.chained = false → onLastSection f q = onBody f q
  | ⟨_, _, false, _⟩, _ => rfl

theorem cutBody_trimElse (middle closing : Strip) (alone : Bool) (hq : q.chained = false)
    (h : CutBody .none dss .none q.body) :
    CutBody (.of middle.after alone) dss (.of closing.before false)
      (trimElse middle closing alone q).body := by
  have hcut := cutBody_trimLine alone
    (cutBody_trimEnd closing.before (cutBody_trimStart middle.after h))
  rw [Cut.none_join, Cut.none_join, Cut.of_join_of, Bool.or_false, Bool.false_or] at hcut
  have helse : trimElse middle closing alone q =
      (let q := if middle.after then onBody (onFirst Content.trimStart) q else q
       let q := if closing.before then onBody (onLast Content.trimEnd) q else q
       if alone then onBody (onFirst Content.trimLine) q else q) := by
    cases hm : middle.after <;> cases hc : closing.before <;> cases alone <;>
      simp [trimElse, hm, hc, onFirstSection, onLastSection_of_not_chained, onBody, hq]
  rw [helse]
  exact hcut

end

/-- The main section of a block between its opening tag and the tag that ends
it. -/
theorem cutBody_mainOf (opening middle closing : Strip) {p : Program}
    (inverse : Option Program)
    (h : CutBody .none (Piece.ofProgram i false p) .none (program i false p).body) :
    CutBody (.of opening.after false) (Piece.ofProgram i false p)
      (match inverse with
        | none => .of closing.before false
        | some q => .of middle.before (!i && elseAlone p q))
      (mainOf i opening middle closing p inverse).body := by
  cases inverse with
  | none => exact cutBody_trimMain opening closing false h
  | some q => exact cutBody_trimMain opening middle _ h

/-- The tags of a block that stand alone, inside a block with a main section. -/
theorem insideSections_some (v : Verdict) (p : Program) (inverse : Option Program) :
    insideSections v (some p) inverse =
      (let p := if v.openAlone then onBody (onFirst Content.trimLine) p else p
       some (if v.closeAlone && inverse.isNone then onBody (onLast Content.trimPadding) p else p),
        closeElse v.closeAlone inverse) := by
  unfold insideSections closeElse
  cases v.openAlone <;> cases v.closeAlone <;> cases inverse <;> rfl

/-- The same without one. -/
theorem insideSections_none (v : Verdict) (q : Program) :
    insideSections v none (some q) =
      (none, some
        (let q := if v.openAlone then onBody (onFirst Content.trimLine) q else q
         if v.closeAlone then onBody (onLast Content.trimPadding) q else q)) := by
  unfold insideSections
  cases v.openAlone <;> cases v.closeAlone <;> rfl

theorem insideSections_none_none (v : Verdict) : insideSections v none none = (none, none) := by
  unfold insideSections
  cases v.openAlone <;> cases v.closeAlone <;> rfl

/-- A link of an else chain stands in no line of its own. -/
theorem program_link (call : Call) (p : Program) (inverse : Option Program)
    (opening middle closing : Strip) (loc : Location) (blockParams : Option (List Text))
    (loc' : Option Location) :
    program i false ⟨[.block ⟨call, some p, inverse, opening, middle, closing, loc⟩],
        blockParams, true, loc'⟩ =
      ⟨[.block ⟨call, some (mainOf i opening middle closing p inverse),
        elseOf i middle closing p inverse, opening, middle, closing, loc⟩],
        blockParams, true, loc'⟩ := by
  rw [program, settleAll, settle, trimBlock_some]
  simp [judgeAll, settleAll, align, judge, lineEnds, lineStarts, finish, insideSections]

theorem trimElse_link {middle closing : Strip} {alone : Bool} {call : Call} {p : Program}
    {inverse : Option Program} {opening middle' closing' : Strip} {loc : Location}
    {blockParams : Option (List Text)} {loc' : Option Location} (hp : p.chained = false) :
    trimElse middle closing alone
        ⟨[.block ⟨call, some p, inverse, opening, middle', closing', loc⟩], blockParams, true,
          loc'⟩ =
      ⟨[.block ⟨call, some
        (let p := if middle.after then onBody (onFirst Content.trimStart) p else p
         let p := if closing.before then onBody (onLast Content.trimEnd) p else p
         if alone then onBody (onFirst Content.trimLine) p else p),
        inverse, opening, middle', closing', loc⟩], blockParams, true, loc'⟩ := by
  obtain ⟨body, blockParams, chained, loc⟩ := p
  obtain rfl : chained = false := hp
  unfold trimElse
  cases middle.after <;> cases closing.before <;> cases alone <;> rfl

theorem chained_mainOf (opening middle closing : Strip) {p : Program}
    {inverse : Option Program} (hp : p.chained = false) :
    (mainOf i opening middle closing p inverse).chained = false := by
  have hprogram := (trimsTo_program i false p).chained_eq.trans hp
  unfold mainOf
  split
  · exact (trimsTo_trimMain opening closing false _).chained_eq.trans hprogram
  · exact (trimsTo_trimMain opening middle _ _).chained_eq.trans hprogram

/-! ## Blocks -/

/-- The sections of a block with all that its tags trim, given that its sections
were cut by the tags inside of them. -/
theorem cutBy_sections {main inverse : Option Program}
    (hinverse : Section.RawInverse chains main.isSome inverse) (opening middle closing : Strip)
    (v : Verdict) (e : Cut)
    (hmain : ∀ p, main = some p →
      CutBody .none (Piece.ofProgram i false p) .none (program i false p).body)
    (helse : ∀ p s,
      CutBy s (Piece.ofInverse i middle closing false v.closeAlone v.after (some p) inverse) e
        (Section.contents (closeElse v.closeAlone (elseOf i middle closing p inverse))))
    (hplain : main = none → ∀ q, inverse = some q →
      CutBody .none (Piece.ofProgram i false q) .none (program i false q).body)
    {sections : Option Program × Option Program}
    (hsections : sections = insideSections v
      (trimBlock i opening middle closing (bodyOf i main) (bodyOf i inverse)).1
      (trimBlock i opening middle closing (bodyOf i main) (bodyOf i inverse)).2.1) :
    CutBy (.of opening.after v.openAlone)
      (Piece.ofSection i main ++
        Piece.ofInverse i middle closing false v.closeAlone v.after main inverse) e
      (Section.contents sections.1 ++ Section.contents sections.2) := by
  subst hsections
  cases main with
  | some p =>
      rw [trimBlock_some, insideSections_some]
      refine CutBy.append ?_ (helse p _)
      rw [headCut_ofInverse middle closing false _ _ _ p hinverse]
      have hcut := cutBody_trimLine v.openAlone
        (cutBody_mainOf opening middle closing inverse (hmain p rfl))
      rw [Cut.of_join_of, Bool.or_false, Bool.false_or] at hcut
      cases inverse with
      | none =>
          have hclose := cutBody_trimPadding v.closeAlone hcut
          rw [Cut.of_join_of, Bool.or_false, Bool.false_or] at hclose
          rw [Bool.or_false]
          cases hc : v.closeAlone <;> rw [hc] at hclose <;> exact hclose.cutBy_program
      | some q =>
          have hnone : (v.closeAlone && (elseOf i middle closing p (some q)).isNone) = false :=
            Bool.and_false _
          simp only [hnone, Bool.or_false]
          exact hcut.cutBy_program
  | none =>
      cases inverse with
      | none =>
          show CutBy _ [_] e (Section.contents (insideSections v none none).1 ++
            Section.contents (insideSections v none none).2)
          rw [insideSections_none_none]
          exact .tag (.nil _ _)
      | some q =>
          show CutBy _ _ e (Section.contents (insideSections v none
              (some (trimMain opening closing false (program i false q)))).1 ++
            Section.contents (insideSections v none
              (some (trimMain opening closing false (program i false q)))).2)
          rw [insideSections_none]
          have hcut := cutBody_trimPadding v.closeAlone (cutBody_trimLine v.openAlone
            (cutBody_trimMain opening closing false (hplain rfl q rfl)))
          rw [Cut.of_join_of, Cut.of_join_of, Bool.or_false, Bool.false_or, Bool.or_false,
            Bool.false_or] at hcut
          obtain ⟨body, blockParams, chained, loc⟩ := q
          exact hcut.cutBy_program.concat_tag _ _

/-- The main section of a link with all that is trimmed in it: what the tags of
its own block trim, and what the block around it trims. -/
def linkMain (i : Bool) (middle closing : Strip) (lone : Bool) (opening middle' closing' : Strip)
    (p : Program) (inverse : Option Program) : Program :=
  let p := mainOf i opening middle' closing' p inverse
  let p := if middle.after then onBody (onFirst Content.trimStart) p else p
  let p := if closing.before then onBody (onLast Content.trimEnd) p else p
  if lone then onBody (onFirst Content.trimLine) p else p

theorem cutBody_linkMain (middle closing opening middle' closing' : Strip) (lone : Bool)
    (after e : Cut) {p : Program} {inverse : Option Program}
    (hinverse : Section.RawInverse chains true inverse)
    (h : CutBody .none (Piece.ofProgram i false p) .none (program i false p).body) :
    CutBody (.of (opening.after || middle.after) lone) (Piece.ofProgram i false p)
      (headCut e (Piece.ofInverse i middle' closing' closing.before false after (some p) inverse))
      (linkMain i middle closing lone opening middle' closing' p inverse).body := by
  have hcut := cutBody_trimLine lone (cutBody_trimEnd closing.before
    (cutBody_trimStart middle.after (cutBody_mainOf opening middle' closing' inverse h)))
  rw [Cut.of_join_of, Cut.of_join_of, Bool.or_false, Bool.or_false, Bool.false_or] at hcut
  rw [headCut_ofInverse middle' closing' closing.before false after e p hinverse]
  cases inverse with
  | none =>
      rw [Cut.of_join_of, Bool.or_false] at hcut
      exact hcut
  | some q =>
      rw [Cut.of_join_of, Bool.or_false] at hcut
      exact hcut

/-- The texts of an else section that is a link.  A closing tag that stands
alone does not reach into it. -/
theorem contents_closeElse_link {middle closing opening middle' closing' : Strip}
    {alone : Bool} {call : Call} {p p' : Program} {inverse : Option Program} {loc : Location}
    {blockParams : Option (List Text)} {loc' : Option Location} (hp : p'.chained = false) :
    let q : Program := ⟨[.block ⟨call, some p', inverse, opening, middle', closing', loc⟩],
      blockParams, true, loc'⟩
    Section.contents (closeElse alone (elseOf i middle closing p (some q))) =
      (linkMain i middle closing (!i && elseAlone p q) opening middle' closing' p' inverse).contents
        ++ Section.contents (elseOf i middle' closing' p' inverse) := by
  intro q
  have hlink : elseOf i middle closing p (some q) =
      some ⟨[.block ⟨call, some (linkMain i middle closing (!i && elseAlone p q) opening middle'
          closing' p' inverse), elseOf i middle' closing' p' inverse, opening, middle', closing',
          loc⟩], blockParams, true, loc'⟩ := by
    show some (trimElse middle closing (!i && elseAlone p q) (program i false q)) = _
    rw [program_link, trimElse_link (chained_mainOf opening middle' closing' hp)]
    rfl
  have hclose : Section.contents (closeElse alone (elseOf i middle closing p (some q))) =
      Section.contents (elseOf i middle closing p (some q)) := by
    rw [hlink]
    cases alone <;> rfl
  rw [hclose, hlink]
  exact List.append_nil _

/-! ## The pass -/

/-- A statement that is no text gets the verdict in the row that it gets in the
pass. -/
theorem judgeAll_of_ne (i root : Bool) {s : Statement} (hne : ∀ c, s ≠ .content c)
    {before before' : List Statement} (hb : Body.TrimsTo before before')
    (rest : List Statement) :
    ∃ v, judge i root ((settle i s).2.getD {}) before rest = v ∧
      judgeAll i root before' (settleAll i (s :: rest)) =
        ((settle i s).1, some v) ::
          judgeAll i root ((settle i s).1 :: before') (settleAll i rest) ∧
      ∀ c, (settle i s).1 ≠ .content c := by
  obtain ⟨s', strip, hsettle, hs'⟩ := settle_of_ne i hne
  refine ⟨_, rfl, ?_, ?_⟩
  · rw [settleAll, hsettle, judgeAll, Option.map_some, Option.getD_some,
      judge_of_trimsTo hb (trimsTo_settleAll i rest)]
  · rw [hsettle]
    exact hs'

/-- The cut before the first of some statements. -/
theorem tagBefore_verdictAt {body : List Statement} (h : Body.Raw chains body) {root : Bool}
    {before before' : List Statement} (hb : Body.TrimsTo before before') :
    tagBefore (verdictAt (judgeAll i root before' (settleAll i body))) =
      headCut .none (Piece.ofBody i root before body).flatten := by
  cases h with
  | nil => rfl
  | @cons s rest hs hr =>
      rcases s.content_or_ne with ⟨c, rfl⟩ | hne
      · rfl
      · obtain ⟨v, hv, hjudged, -⟩ := judgeAll_of_ne i root hne hb rest
        obtain ⟨a, ds, hds, -⟩ := ofStatement_of_ne (i := i) v hne hs
        rw [hjudged, Piece.ofBody, hv, hds]
        rfl

mutual

/-- A run over a tree as it is written cuts its texts by the tags next to
them. -/
theorem cutBody_program : ∀ {p : Program}, Program.Raw chains p → ∀ root : Bool,
    CutBody .none (Piece.ofProgram i root p) .none (program i root p).body
  | _, .mk hb, _ => cutBody_align hb none none .nil

theorem cutBody_align : ∀ {body : List Statement}, Body.Raw chains body →
    ∀ {root : Bool} {before before' : List Statement} (tag : Option Verdict)
      (text : Option Content), Body.TrimsTo before before' →
      CutBody (tagAfter tag) (Piece.ofBody i root before body) .none
        (align tag text (judgeAll i root before' (settleAll i body)))
  | _, .nil, _, _, _, _, _, _ => .nil _ _
  | s :: rest, .cons hs hr, root, before, before', tag, text, hb => by
      rcases s.content_or_ne with ⟨c, rfl⟩ | hne
      · have hfresh : c.Fresh := by
          cases hs with
          | content h => exact h
        have hcut := cutTo_beforeTag (verdictAt (judgeAll i root (.content c :: before')
          (settleAll i rest))) (cutTo_afterTag tag (.fresh hfresh))
        have hb' : Body.TrimsTo (.content c :: before) (.content c :: before') :=
          .cons (Statement.TrimsTo.refl _) hb
        rw [tagBefore_verdictAt hr hb'] at hcut
        exact .content hcut (cutBody_align hr none _ hb')
      · obtain ⟨v, hv, hjudged, hs'⟩ := judgeAll_of_ne i root hne hb rest
        obtain ⟨a, ds, hds, hlast⟩ := ofStatement_of_ne v hne hs
        have hrest : CutBody (tagAfter (some v)) (Piece.ofBody i root (s :: before) rest) .none _ :=
          cutBody_align hr (some v) none (.cons (trimsTo_settle i s) hb)
        rw [hjudged, align_cons_of_ne hs', Piece.ofBody, hv, hds]
        rw [tagAfter, ← hlast] at hrest
        exact .tag (finish_of_ne hs' text v) (fun e => cutBy_statement hs hne v text hds) hrest

theorem cutBy_statement : ∀ {s : Statement}, Statement.Raw chains s →
    (∀ c, s ≠ .content c) → ∀ (v : Verdict) (text : Option Content) {a e : Cut}
      {ds : List Piece}, Piece.ofStatement i v s = .tag v.before a :: ds →
      CutBy a ds e (finish text v (settle i s).1).contents
  | _, .content _, hne, _, _, _, _, _, _ => absurd rfl (hne _)
  | _, .mustache _, _, _, _, _, _, _, h => by
      obtain ⟨-, rfl⟩ := List.cons.inj h
      exact .nil _ _
  | _, .decorator _, _, _, _, _, _, _, h => by
      obtain ⟨-, rfl⟩ := List.cons.inj h
      exact .nil _ _
  | _, .inclusion _, _, _, text, _, _, _, h => by
      obtain ⟨-, rfl⟩ := List.cons.inj h
      cases text <;> exact .nil _ _
  | _, .comment _, _, _, _, _, _, _, h => by
      obtain ⟨-, rfl⟩ := List.cons.inj h
      exact .nil _ _
  | .block ⟨call, main, inverse, opening, middle, closing, loc⟩, .block _ hmain hinverse,
      _, v, text, a, e, ds, h => by
      obtain ⟨htag, rfl⟩ := List.cons.inj h
      obtain ⟨-, rfl⟩ := Piece.tag.inj htag
      exact cutBy_sections hinverse opening middle closing v e (cutBody_section hmain)
        (fun p s => cutBy_inverse hinverse middle closing false v.closeAlone v.after p s e)
        (fun hnone => cutBody_inverse hinverse (hnone ▸ rfl)) rfl
  | .decoratorBlock ⟨call, main, inverse, opening, middle, closing, loc⟩,
      .decoratorBlock _ hmain hinverse, _, v, text, a, e, ds, h => by
      obtain ⟨htag, rfl⟩ := List.cons.inj h
      obtain ⟨-, rfl⟩ := Piece.tag.inj htag
      exact cutBy_sections hinverse opening middle closing v e (cutBody_section hmain)
        (fun p s => cutBy_inverse hinverse middle closing false v.closeAlone v.after p s e)
        (fun hnone => cutBody_inverse hinverse (hnone ▸ rfl)) rfl
  | .inclusionBlock ⟨call, main, opening, closing, loc⟩, .inclusionBlock _ hmain, _, v, text, a,
      e, ds, h => by
      obtain ⟨htag, rfl⟩ := List.cons.inj h
      obtain ⟨-, rfl⟩ := Piece.tag.inj htag
      have hcut := cutBody_trimPadding v.closeAlone (cutBody_trimLine v.openAlone
        (cutBody_trimMain opening closing false (cutBody_program hmain false)))
      rw [Cut.of_join_of, Cut.of_join_of, Bool.or_false, Bool.false_or, Bool.or_false,
        Bool.false_or] at hcut
      exact hcut.cutBy_program.concat_tag _ _

theorem cutBody_section : ∀ {main : Option Program}, Section.Raw chains main →
    ∀ p, main = some p → CutBody .none (Piece.ofProgram i false p) .none (program i false p).body
  | _, .none, _, h => nomatch h
  | _, .some hp, _, h => Option.some.inj h ▸ cutBody_program hp false

theorem cutBody_inverse : ∀ {m : Bool} {inverse : Option Program},
    Section.RawInverse chains m inverse → m = false → ∀ q, inverse = some q →
      CutBody .none (Piece.ofProgram i false q) .none (program i false q).body
  | _, _, .none, _, _, h => nomatch h
  | _, _, .plain hb, _, _, h => Option.some.inj h ▸ cutBody_align hb none none .nil
  | _, _, .link _ _ _ _, hm, _, _ => nomatch hm

theorem cutBy_inverse : ∀ {m : Bool} {inverse : Option Program},
    Section.RawInverse chains m inverse → ∀ (middle closing : Strip) (marked alone : Bool)
      (after : Cut) (p : Program) (s e : Cut),
      CutBy s (Piece.ofInverse i middle closing marked alone after (some p) inverse) e
        (Section.contents (closeElse alone (elseOf i middle closing p inverse)))
  | _, _, .none, _, _, _, alone, _, _, _, _ => by
      cases alone <;> exact .tag (.nil _ _)
  | _, some ⟨body, b, _, l⟩, .plain hb, middle, closing, marked, alone, after, p, s, e => by
      have hq : CutBody .none (Piece.ofBody i false [] body) .none
          (program i false ⟨body, b, false, l⟩).body := cutBody_align hb none none .nil
      have hcut := cutBody_trimPadding alone (cutBody_trimElse middle closing
        (!i && elseAlone p ⟨body, b, false, l⟩) rfl hq)
      rw [Cut.of_join_of, Bool.or_false, Bool.false_or] at hcut
      have hrow : CutBy s (Piece.ofInverse i middle closing marked alone after (some p)
          (some ⟨body, b, false, l⟩)) e _ := .tag (hcut.cutBy_program.concat_tag after e)
      cases alone <;> exact hrow
  | _, some ⟨[.block ⟨call, some p', inverse, opening, middle', closing', l⟩], b, _, l'⟩,
      .link _ _ hp hinverse, middle, closing, marked, alone, after, p, s, e => by
      have hcut := cutBody_linkMain middle closing opening middle' closing'
        (!i && elseAlone p ⟨[.block ⟨call, some p', inverse, opening, middle', closing', l⟩], b,
          true, l'⟩) after e hinverse (cutBody_program hp false)
      rw [contents_closeElse_link hp.chained_eq]
      exact .tag (hcut.cutBy_program.append
        (cutBy_inverse hinverse middle' closing' closing.before false after p' _ e))

end

end Layout
end Stache
