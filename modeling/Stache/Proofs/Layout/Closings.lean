import Stache.Proofs.Layout.Chains
import Stache.Proofs.Tree.Places

/-!
# The closing tag of an else chain

A block reports that its closing tag may stand alone if the section in front of
that tag ends its line.  For a block with an else chain it looks at the first
section behind the first else tag instead, which is the section in front of the
closing tag only if the chain has one link and no more.

The text behind the closing tag is cut accordingly (`cutTo_behind_chain`).  For
this the pieces of a template are split around the place where the block stands,
which the sections on the way to it allow: the pieces of a block are tags and
the pieces of its sections (`Piece.Carry`).
-/

namespace Stache
namespace Layout

variable {i : Bool} {chains : Bool}

/-! ## The pieces of a tree and its texts -/

/-- The texts of some pieces. -/
def Piece.texts : List Piece → List Content
  | [] => []
  | .text c :: ds => c :: texts ds
  | .tag _ _ :: ds => texts ds
termination_by structural ds => ds

theorem Piece.texts_append (ds ds' : List Piece) :
    Piece.texts (ds ++ ds') = Piece.texts ds ++ Piece.texts ds' := by
  induction ds with
  | nil => rfl
  | cons d ds ih =>
      cases d with
      | text c => exact congrArg (List.cons c) ih
      | tag before after => exact ih

theorem Piece.texts_concat_tag (ds : List Piece) (before after : Cut) :
    Piece.texts (ds ++ [.tag before after]) = Piece.texts ds := by
  rw [texts_append]
  exact List.append_nil _

mutual

theorem texts_ofProgram : ∀ {p : Program}, Program.Raw chains p → ∀ root : Bool,
    Piece.texts (Piece.ofProgram i root p).flatten = p.contents
  | _, .mk hb, root => texts_ofBody hb root []

theorem texts_ofBody : ∀ {body : List Statement}, Body.Raw chains body →
    ∀ (root : Bool) (before : List Statement),
      Piece.texts (Piece.ofBody i root before body).flatten = Body.contents body
  | _, .nil, _, _ => rfl
  | _, .cons hs hr, root, before => by
      rw [Piece.ofBody, List.flatten_cons, Piece.texts_append, texts_ofStatement hs,
        texts_ofBody hr]
      rfl

theorem texts_ofStatement : ∀ {s : Statement}, Statement.Raw chains s → ∀ v : Verdict,
    Piece.texts (Piece.ofStatement i v s) = s.contents
  | _, .content _, _ => rfl
  | _, .mustache _, _ | _, .decorator _, _ | _, .inclusion _, _ | _, .comment _, _ => rfl
  | _, .block _ hmain hinverse, _ | _, .decoratorBlock _ hmain hinverse, _ => by
      rw [Piece.ofStatement, Piece.texts, Piece.texts_append, texts_ofSection hmain,
        texts_ofInverse hinverse rfl]
      rfl
  | _, .inclusionBlock _ hmain, _ => by
      rw [Piece.ofStatement, Piece.texts, Piece.texts_concat_tag, texts_ofProgram hmain]
      rfl

theorem texts_ofSection : ∀ {main : Option Program}, Section.Raw chains main →
    Piece.texts (Piece.ofSection i main) = Section.contents main
  | _, .none => rfl
  | _, .some hp => texts_ofProgram hp false

theorem texts_ofInverse : ∀ {m : Bool} {inverse : Option Program},
    Section.RawInverse chains m inverse →
    ∀ {middle closing : Strip} {marked alone : Bool} {after : Cut} {main : Option Program},
      main.isSome = m →
      Piece.texts (Piece.ofInverse i middle closing marked alone after main inverse) =
        Section.contents inverse
  | _, _, .none, _, _, _, _, _, _, _ => rfl
  | _, _, .plain hb, _, _, _, _, _, none, _ => by
      rw [Piece.ofInverse, Piece.texts_concat_tag, texts_ofBody hb]
      rfl
  | _, _, .plain hb, _, _, _, _, _, some _, _ => by
      show Piece.texts (.tag _ _ :: (_ ++ [.tag _ _])) = _
      rw [Piece.texts, Piece.texts_concat_tag, texts_ofBody hb]
      rfl
  | _, _, .link _ _ hp hinverse, _, _, _, _, _, some _, _ => by
      show Piece.texts (.tag _ _ :: ((Piece.ofProgram i false _).flatten ++ _)) = _
      rw [Piece.texts, Piece.texts_append, texts_ofProgram hp, texts_ofInverse hinverse rfl]
      exact (List.append_nil _).symm

end

/-! ## The pieces of a block and its sections -/

/-- Some pieces are tags and the pieces of some sections, in this order. -/
inductive Piece.Carry (i chains : Bool) : List Piece → List Program → Prop where
  | nil : Piece.Carry i chains [] []
  | tag (before after : Cut) {ds : List Piece} {ps : List Program} (h : Piece.Carry i chains ds ps) :
      Piece.Carry i chains (.tag before after :: ds) ps
  | program {p : Program} {ds : List Piece} {ps : List Program} (hp : Program.Raw chains p)
      (h : Piece.Carry i chains ds ps) :
      Piece.Carry i chains ((Piece.ofProgram i false p).flatten ++ ds) (p :: ps)

namespace Piece.Carry

variable {ds ds' : List Piece} {ps ps' : List Program}

theorem append (h : Piece.Carry i chains ds ps) (h' : Piece.Carry i chains ds' ps') :
    Piece.Carry i chains (ds ++ ds') (ps ++ ps') := by
  induction h with
  | nil => exact h'
  | tag before after _ ih => exact .tag before after ih
  | program hp _ ih =>
      rw [List.append_assoc]
      exact .program hp ih

theorem single {p : Program} (hp : Program.Raw chains p) :
    Piece.Carry i chains (Piece.ofProgram i false p).flatten [p] := by
  have h : Piece.Carry i chains ((Piece.ofProgram i false p).flatten ++ []) [p] := .program hp .nil
  rwa [List.append_nil] at h

theorem texts (h : Piece.Carry i chains ds ps) : Piece.texts ds = ps.flatMap Program.contents := by
  induction h with
  | nil => rfl
  | tag _ _ _ ih => exact ih
  | program hp _ ih => rw [Piece.texts_append, ih, texts_ofProgram hp, List.flatMap_cons]

/-- The pieces around those of one section. -/
theorem exists_split {p : Program} (h : Piece.Carry i chains ds (ps ++ p :: ps')) :
    ∃ front behind, ds = front ++ ((Piece.ofProgram i false p).flatten ++ behind) ∧
      Piece.Carry i chains front ps ∧ Piece.Carry i chains behind ps' ∧ Program.Raw chains p := by
  generalize hall : ps ++ p :: ps' = all at h
  induction h generalizing ps with
  | nil => exact absurd hall (by simp)
  | tag before after _ ih =>
      obtain ⟨front, behind, rfl, hfront, hbehind, hp⟩ := ih hall
      exact ⟨_ :: front, behind, rfl, .tag before after hfront, hbehind, hp⟩
  | program hp h ih =>
      cases ps with
      | nil =>
          obtain ⟨rfl, rfl⟩ := List.cons.inj hall
          exact ⟨[], _, rfl, .nil, h, hp⟩
      | cons p' ps =>
          obtain ⟨rfl, hrest⟩ := List.cons.inj hall
          obtain ⟨front, behind, rfl, hfront, hbehind, hp'⟩ := ih hrest
          refine ⟨_ ++ front, behind, ?_, .program hp hfront, hbehind, hp'⟩
          rw [List.append_assoc]

end Piece.Carry

theorem carry_ofSection {main : Option Program} (h : Section.Raw chains main) :
    Piece.Carry i chains (Piece.ofSection i main) (Section.sections main) := by
  cases h with
  | none => exact .nil
  | some hp =>
      cases hp with
      | mk hb => exact .single (.mk hb)

theorem carry_ofInverse : ∀ {m : Bool} {inverse : Option Program},
    Section.RawInverse chains m inverse →
    ∀ {middle closing : Strip} {marked alone : Bool} {after : Cut} {main : Option Program},
      main.isSome = m →
      Piece.Carry i chains (Piece.ofInverse i middle closing marked alone after main inverse)
        (Section.sections inverse)
  | _, _, .none, _, _, _, _, _, _, _ => .tag _ _ .nil
  | _, _, .plain hb, _, _, _, _, _, none, _ => .program (.mk hb) (.tag _ _ .nil)
  | _, _, .plain hb, _, _, _, _, _, some _, _ => .tag _ _ (.program (.mk hb) (.tag _ _ .nil))
  | _, _, .link _ _ hp hinverse, _, _, _, _, _, some _, _ => by
      show Piece.Carry i chains (.tag _ _ :: _) (Section.sections (some _) ++ _ ++ [])
      rw [List.append_nil]
      exact .tag _ _ (.append (carry_ofSection (.some hp)) (carry_ofInverse hinverse rfl))

/-- A statement that is no text is made of tags and its sections. -/
theorem carry_ofStatement {s : Statement} (h : Statement.Raw chains s) (hs : ∀ c, s ≠ .content c)
    (v : Verdict) : Piece.Carry i chains (Piece.ofStatement i v s) s.sections := by
  cases h with
  | content => exact absurd rfl (hs _)
  | mustache _ | decorator _ | inclusion _ | comment _ => exact .tag _ _ .nil
  | block _ hmain hinverse | decoratorBlock _ hmain hinverse =>
      exact .tag _ _ (.append (carry_ofSection hmain) (carry_ofInverse hinverse rfl))
  | inclusionBlock _ hmain => exact .tag _ _ (.program hmain (.tag _ _ .nil))

/-! ## The pieces around a place -/

/-- The verdict on the statement of a place. -/
def verdictOf (i : Bool) (place : Place) : Verdict :=
  judge i place.root ((settle i place.statement).2.getD {}) place.before place.after

/-- The pieces of a list of statements, from one of them on. -/
theorem exists_ofBody_append {body : List Statement} (h : Body.Raw chains body) (root : Bool)
    (before body' : List Statement) :
    ∃ front, Piece.ofBody i root before (body ++ body') =
        front ++ Piece.ofBody i root (body.reverse ++ before) body' ∧
      Piece.texts front.flatten = Body.contents body := by
  induction body generalizing before with
  | nil => exact ⟨[], rfl, rfl⟩
  | cons s rest ih =>
      cases h with
      | cons hs hr =>
          obtain ⟨front, hfront, htexts⟩ := ih hr (s :: before)
          refine ⟨Piece.ofStatement i
            (judge i root ((settle i s).2.getD {}) before (rest ++ body')) s :: front, ?_, ?_⟩
          · rw [List.cons_append, Piece.ofBody, hfront, List.reverse_cons, List.append_assoc]
            rfl
          · rw [List.flatten_cons, Piece.texts_append, texts_ofStatement hs, htexts]
            rfl

/-- The pieces of a template around those of one of its statements. -/
theorem exists_pieces_of_holds {place : Place} {root : Bool} {p : Program}
    {back ahead : List Content} (h : p.Holds place root back ahead) (hp : Program.Raw chains p) :
    Statement.Raw chains place.statement ∧
      ∃ front behind, (Piece.ofProgram i root p).flatten =
          front ++ (Piece.ofStatement i (verdictOf i place) place.statement ++
            ((Piece.ofBody i place.root (place.statement :: place.before) place.after).flatten ++
              behind)) ∧
        Piece.texts front = back ∧
        Piece.texts
          ((Piece.ofBody i place.root (place.statement :: place.before) place.after).flatten ++
            behind) = ahead := by
  induction h with
  | here =>
      cases hp with
      | mk hb =>
          obtain ⟨hbefore, hrest⟩ := hb.of_append
          cases hrest with
          | cons hs hafter =>
              obtain ⟨front, hfront, htexts⟩ := exists_ofBody_append (i := i) hbefore place.root []
                (place.statement :: place.after)
              refine ⟨hs, front.flatten, [], ?_, htexts, ?_⟩
              · rw [Piece.ofProgram, hfront, List.flatten_append, Piece.ofBody, List.flatten_cons,
                  List.reverse_reverse, List.append_nil, List.append_nil]
                rfl
              · rw [List.append_nil, texts_ofBody hafter]
  | @inside root before after s blockParams loc sections sections' p back ahead hsections h ih =>
      cases hp with
      | mk hb =>
          obtain ⟨hbefore, hrest⟩ := hb.of_append
          cases hrest with
          | cons hs hafter =>
              have hne : ∀ c, s ≠ .content c := by
                rintro c rfl
                exact absurd hsections (by simp [Statement.sections])
              obtain ⟨front, hfront, htexts⟩ := exists_ofBody_append (i := i) hbefore root []
                (s :: after)
              have hcarry := carry_ofStatement (i := i) hs hne
                (judge i root ((settle i s).2.getD {}) (before.reverse ++ []) after)
              rw [hsections] at hcarry
              obtain ⟨pre, post, hpieces, hpre, hpost, hp⟩ := hcarry.exists_split
              obtain ⟨hstatement, front', behind', hpieces', htexts', hbehind'⟩ := ih hp
              refine ⟨hstatement, front.flatten ++ (pre ++ front'), behind' ++ (post ++
                (Piece.ofBody i root (s :: (before.reverse ++ [])) after).flatten), ?_, ?_,
                ?_⟩
              · rw [Piece.ofProgram, hfront, List.flatten_append, Piece.ofBody, List.flatten_cons,
                  hpieces, hpieces']
                simp only [List.append_assoc]
              · rw [Piece.texts_append, Piece.texts_append, htexts, htexts', hpre.texts]
              · rw [← List.append_assoc, Piece.texts_append, hbehind', Piece.texts_append, hpost.texts,
                  texts_ofBody hafter]

/-! ## The closing tag -/

/-- The closing tag of an else chain stands alone if the first section behind the
first else tag ends its line, and a line starts behind the closing tag. -/
theorem after_verdictOf {place : Place} {node : Block} (hnode : place.statement = .block node)
    (hraw : Statement.Raw chains place.statement) {chain : Program}
    (hinverse : node.inverse = some chain) (hchained : chain.chained = true) :
    ∃ first, firstSection? chain = some first ∧
      (verdictOf i place).after = .of node.closeStrip.after
        (!i && lineEnds false first.reverse && lineStarts place.root place.after) := by
  obtain ⟨root, before, s, after⟩ := place
  obtain rfl : s = .block node := hnode
  obtain ⟨call, main, inverse, opening, middle, closing, loc⟩ := node
  obtain rfl : inverse = some chain := hinverse
  cases hraw with
  | block _ hmain hinverse =>
      generalize hm : main.isSome = m at hinverse
      cases hinverse with
      | plain _ => exact nomatch hchained
      | @link _ p =>
          obtain ⟨p', rfl⟩ := Option.isSome_iff_exists.mp hm
          refine ⟨p.body, rfl, ?_⟩
          rw [verdictOf, settle_report]
          cases i <;> rfl

/-- Behind the pieces of a statement stands the cut of its closing tag. -/
theorem lastCut_ofStatement (v : Verdict) {s : Statement} (hs : ∀ c, s ≠ .content c)
    (h : Statement.Raw chains s) (before : Cut) :
    lastCut before (Piece.ofStatement i v s) = v.after := by
  obtain ⟨a, ds, hds, hlast⟩ := ofStatement_of_ne (i := i) v hs h
  rw [hds]
  exact hlast

theorem written_of_cutBy {s e : Cut} {ds : List Piece} {cs : List Content} (h : CutBy s ds e cs) :
    cs.map Content.written = (Piece.texts ds).map Content.written := by
  induction h with
  | nil => rfl
  | text hcut _ ih => exact List.cons_eq_cons.mpr ⟨hcut.written, ih⟩
  | tag _ ih => exact ih

/-- **The closing tag of an else chain.**  It stands alone on its line if the
main section of the first link ends its line and the text behind the tag starts
one.  The text behind the tag loses just what goes behind such a tag: all white
space if the tag has a marker there, else its line of padding if the tag stands
alone, else nothing. -/
theorem cutTo_behind_chain {o : Options} (ho : o.ignoreStandalone = false) {text : Text}
    {p q : Program} (hraw : parseRaw o text = .ok q) (h : parse o text = .ok p) {place : Place}
    {back ahead : List Content} (hplace : q.Holds place true back ahead) {node : Block}
    (hnode : place.statement = .block node) {chain : Program} (hinverse : node.inverse = some chain)
    (hchained : chain.chained = true) :
    ∃ first back' ahead', firstSection? chain = some first ∧ p.contents = back' ++ ahead' ∧
      back'.map Content.written = (back ++ place.statement.contents).map Content.written ∧
      ahead'.map Content.written = ahead.map Content.written ∧
      ∀ c after, place.after = .content c :: after →
        ∃ d more e, ahead' = d :: more ∧
          c.CutTo (.of node.closeStrip.after
            (lineEnds false first.reverse && lineStarts place.root place.after)) e d := by
  obtain ⟨q', hq', rfl⟩ := exists_of_parse h
  obtain rfl : q = q' := Except.ok.inj (hraw.symm.trans hq')
  have hq := (spelled_of_parseRaw hraw).raw
  have hcut := (cutBody_program (i := o.ignoreStandalone) hq true).cutBy_program
  obtain ⟨hs, front, behind, hpieces, rfl, rfl⟩ :=
    exists_pieces_of_holds (i := o.ignoreStandalone) hplace hq
  obtain ⟨first, hfirst, hafter⟩ := after_verdictOf (i := o.ignoreStandalone) hnode hs hinverse
    hchained
  rw [hpieces, ← List.append_assoc] at hcut
  obtain ⟨back', ahead', hcontents, hback, hahead⟩ := hcut.exists_append
  have hne : ∀ c, place.statement ≠ .content c := by simp [hnode]
  rw [lastCut_append, lastCut_ofStatement _ hne hs, hafter] at hahead
  refine ⟨first, back', ahead', hfirst, hcontents, ?_, ?_, ?_⟩
  · rw [written_of_cutBy hback, Piece.texts_append, texts_ofStatement hs]
  · rw [written_of_cutBy hahead]
  · intro c after hc
    rw [hc] at hahead ⊢
    cases hahead with
    | text hd _ =>
        rw [ho] at hd
        exact ⟨_, _, _, rfl, hd⟩

/-! ## Two chains -/

/-- The chain `{{#a}}A{{else b}}`, `B`, `{{else}}C{{/a}}`, `D` with a line break
before and behind the `B` and before the `D`. -/
def farChain : Text :=
  ("\x7b\x7b#a\x7d\x7dA\x7b\x7belse b\x7d\x7d\nB\n\x7b\x7belse\x7d\x7dC\x7b\x7b/a\x7d\x7d" ++
    "\nD").toList

/-- The chain `{{#a}}`, `A`, `{{else b}}`, `B`, `{{/a}}`, `C` with a line for
each of them and two blanks before the closing tag. -/
def nearChain : Text :=
  ("\x7b\x7b#a\x7d\x7d\nA\n\x7b\x7belse b\x7d\x7d\nB\n  \x7b\x7b/a\x7d\x7d" ++ "\nC").toList

/-- The section in front of the closing tag does not decide: behind a section
that does not end its line the line break goes all the same.  And the padding in
front of a closing tag alone on its line stays. -/
theorem cutTo_behind_chain_ne :
    (∃ p, parse {} farChain = .ok p ∧ p.contents.map (fun c => (c.written, c.value)) =
      [("A".toList, "A".toList), ("\nB\n".toList, "\nB\n".toList), ("C".toList, "C".toList),
        ("\nD".toList, "D".toList)]) ∧
      Text.endsLine "C".toList = false ∧
      (∃ p, parse {} nearChain = .ok p ∧ p.contents.map (fun c => (c.written, c.value)) =
        [("\nA\n".toList, "A\n".toList), ("\nB\n  ".toList, "B\n  ".toList),
          ("\nC".toList, "C".toList)]) ∧
      Text.endsLine "\nB\n  ".toList = true ∧ Text.startsLine "\nC".toList = true := by
  have hfar : (parse {} farChain).map (fun p => p.contents.map fun c => (c.written, c.value)) =
      .ok [("A".toList, "A".toList), ("\nB\n".toList, "\nB\n".toList), ("C".toList, "C".toList),
        ("\nD".toList, "D".toList)] := by cbv
  have hnear : (parse {} nearChain).map (fun p => p.contents.map fun c => (c.written, c.value)) =
      .ok [("\nA\n".toList, "A\n".toList), ("\nB\n  ".toList, "B\n  ".toList),
        ("\nC".toList, "C".toList)] := by cbv
  exact ⟨exists_of_map_eq_ok hfar, by decide, exists_of_map_eq_ok hnear, by decide, by decide⟩

/-- The first link of `farChain` is the one that decides. -/
theorem cutTo_behind_chain_farChain : ∃ p back d, parse {} farChain = .ok p ∧
    p.contents = back ++ [d] ∧ d.written = "\nD".toList ∧ d.value = "D".toList := by
  obtain ⟨q, node, chain, first, c, hraw, hbody, hq, hinverse, hchained, hfirst, hclosing, hends,
      hstarts⟩ : ∃ q node chain first c, parseRaw {} farChain = .ok q ∧
        q.body = [.block node, .content c] ∧ q.chained = false ∧ node.inverse = some chain ∧
        chain.chained = true ∧ firstSection? chain = some [.content first] ∧
        node.closeStrip = {} ∧ first.written = "\nB\n".toList ∧ c.written = "\nD".toList :=
    ⟨_, _, _, _, _, by cbv, by rfl, by rfl, by rfl, by rfl, by rfl, by rfl, by rfl, by rfl⟩
  have hok : parse {} farChain = .ok (normalize {} q) := by
    rw [parse, hraw]
    rfl
  obtain ⟨body, params, chained, loc⟩ := q
  obtain rfl : body = [.block node, .content c] := hbody
  obtain rfl : chained = false := hq
  have hplace : Program.Holds ⟨true, [], .block node, [.content c]⟩ true
      ⟨[.block node, .content c], params, false, loc⟩ [] [c] := .here
  obtain ⟨first', back, ahead, hfirst', hcontents, -, hahead, hcut⟩ :=
    cutTo_behind_chain rfl hraw hok hplace rfl hinverse hchained
  obtain rfl : [.content first] = first' := Option.some.inj (hfirst.symm.trans hfirst')
  obtain ⟨d, more, e, rfl, hd⟩ := hcut c [] rfl
  obtain rfl : more = [] := List.map_eq_nil_iff.mp (List.cons.inj hahead).2
  have hlone : (lineEnds false [.content first] && lineStarts true [.content c]) = true := by
    rw [lineEnds, lineStarts, hends, hstarts]
    decide
  refine ⟨_, back, d, hok, hcontents, hd.written.trans hstarts, ?_⟩
  rw [hd.value, hclosing, List.reverse_singleton, hlone, hstarts]
  cases e <;> decide

end Layout
end Stache
