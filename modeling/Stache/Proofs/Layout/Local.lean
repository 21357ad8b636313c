import Stache.Proofs.Layout.Cuts

/-!
# Whitespace control is a local rule

Written out from its start to its end, a template without else chains is a row
of texts and tags, and whitespace control does to each text what the two tags
next to it say.  A tag with a `~` on a side takes all white space on that side.
A tag that stands alone on its line takes the padding before it, and behind it
the padding with one line break.

A tag can stand alone unless it writes a value or is a decorator.  It does if
the item before it ends its line and the item after it starts one.  The start
and the end of the template count, and so does a blank text between one of them
and the tag.

There is no trace of the tree in this rule: it does not say at which depth a tag
stands, which tags belong together or what was trimmed before.
-/

namespace Stache
namespace Layout

/-! ## The row of a template -/

/-- A tag of a template. -/
structure Tag where
  /-- It has a `~` at its start. -/
  before : Bool
  /-- It has a `~` at its end. -/
  after : Bool
  /-- It may stand alone on a line. -/
  lone : Bool
deriving DecidableEq, Repr

/-- A text or a tag. -/
inductive Item where
  | text (c : Content)
  | tag (t : Tag)
deriving DecidableEq, Repr

/-- The item of a tag with some markers. -/
def Strip.item (strip : Strip) (lone : Bool) : Item := .tag ⟨strip.before, strip.after, lone⟩

mutual

/-- The row of a program. -/
def itemsOfProgram : Program → List Item
  | ⟨body, _, _, _⟩ => itemsOfBody body

/-- The row of a list of statements. -/
def itemsOfBody : List Statement → List Item
  | [] => []
  | s :: rest => itemsOfStatement s ++ itemsOfBody rest

/-- The row of a statement.  A block gives its opening tag, its main section,
its else tag if it has both sections, its else section and its closing tag. -/
def itemsOfStatement : Statement → List Item
  | .content c => [.text c]
  | .mustache node | .decorator node => [Strip.item node.strip false]
  | .inclusion node => [Strip.item node.strip true]
  | .comment node => [Strip.item node.strip true]
  | .block ⟨_, main, inverse, opening, middle, closing, _⟩ =>
      Strip.item opening true :: (itemsOfSection main ++
        ((if main.isSome && inverse.isSome then [Strip.item middle true] else []) ++
          (itemsOfSection inverse ++ [Strip.item closing true])))
  | .decoratorBlock ⟨_, main, inverse, opening, middle, closing, _⟩ =>
      Strip.item opening true :: (itemsOfSection main ++
        ((if main.isSome && inverse.isSome then [Strip.item middle true] else []) ++
          (itemsOfSection inverse ++ [Strip.item closing true])))
  | .inclusionBlock ⟨_, main, opening, closing, _⟩ =>
      Strip.item opening true :: (itemsOfProgram main ++ [Strip.item closing true])

/-- The row of a section, if it is there. -/
def itemsOfSection : Option Program → List Item
  | none => []
  | some p => itemsOfProgram p

end

/-! ## The rule -/

/-- The line ends before a tag.  `before` are the items before it, the nearest
first. -/
def rowEnds (before : List Item) : Bool :=
  match before with
  | [] => true
  | .text c :: more => c.written.endsLine || (more.isEmpty && c.written.allSpace)
  | .tag _ :: _ => false

/-- A line starts after a tag. -/
def rowStarts (after : List Item) : Bool :=
  match after with
  | [] => true
  | .text c :: more => c.written.startsLine || (more.isEmpty && c.written.allSpace)
  | .tag _ :: _ => false

/-- The tag stands alone between the items before it and those after it. -/
def Tag.standsAlone (ignoreStandalone : Bool) (t : Tag) (before after : List Item) : Bool :=
  !ignoreStandalone && t.lone && rowEnds before && rowStarts after

/-- What the item right before a text cuts off its start. -/
def cutBehind (ignoreStandalone : Bool) (before after : List Item) : Cut :=
  match before with
  | .tag t :: more => .of t.after (t.standsAlone ignoreStandalone more after)
  | _ => .none

/-- What the item right behind a text cuts off its end. -/
def cutAhead (ignoreStandalone : Bool) (before after : List Item) : Cut :=
  match after with
  | .tag t :: more => .of t.before (t.standsAlone ignoreStandalone before more)
  | _ => .none

/-- The texts of a row, each cut by the items next to it.  `before` are the items
before the row, the nearest first. -/
def localTexts (ignoreStandalone : Bool) (before : List Item) : List Item → List Text
  | [] => []
  | .tag t :: after => localTexts ignoreStandalone (.tag t :: before) after
  | .text c :: after =>
      (cutAhead ignoreStandalone (.text c :: before) after).atEnd
          ((cutBehind ignoreStandalone before (.text c :: after)).atStart c.written) ::
        localTexts ignoreStandalone (.text c :: before) after
termination_by structural row => row

/-! ## The pieces of a row -/

/-- The pieces of a row by the rule. -/
def rowPieces (i : Bool) (before : List Item) : List Item → List Piece
  | [] => []
  | .text c :: after => .text c :: rowPieces i (.text c :: before) after
  | .tag t :: after =>
      .tag (.of t.before (t.standsAlone i before after))
          (.of t.after (t.standsAlone i before after)) ::
        rowPieces i (.tag t :: before) after
termination_by structural row => row

theorem headCut_rowPieces (i : Bool) (before after : List Item) :
    headCut .none (rowPieces i before after) = cutAhead i before after := by
  cases after with
  | nil => rfl
  | cons x after => cases x <;> rfl

/-- Texts that were cut by the pieces of a row are the texts that the rule
gives. -/
theorem value_of_cutBy {i : Bool} {s : Cut} {before row : List Item} {cs : List Content}
    (h : CutBy s (rowPieces i before row) .none cs)
    (hs : ∀ c after, row = .text c :: after → s = cutBehind i before row) :
    cs.map Content.value = localTexts i before row := by
  induction row generalizing s before cs with
  | nil =>
      cases h with
      | nil => rfl
  | cons x after ih =>
      cases x with
      | text c =>
          cases h with
          | text hcut hrest =>
              have hvalue := hcut.value
              rw [hs c after rfl, headCut_rowPieces] at hvalue
              rw [List.map_cons, hvalue, ih hrest fun _ _ _ => rfl]
              rfl
      | tag t =>
          cases h with
          | tag hrest =>
              refine ih hrest fun c after' hafter => ?_
              rfl

/-! ## Lines in a row -/

/-- What stands around a list of statements: nothing at the root, and the tags
of a block anywhere else. -/
inductive Outer : Bool → List Item → Prop where
  | root : Outer true []
  | inner (t : Tag) (more : List Item) : Outer false (.tag t :: more)

theorem Outer.item (strip : Strip) (lone : Bool) (more : List Item) :
    Outer false (Strip.item strip lone :: more) := .inner _ _

theorem itemsOfBody_append (body body' : List Statement) :
    itemsOfBody (body ++ body') = itemsOfBody body ++ itemsOfBody body' := by
  induction body with
  | nil => rfl
  | cons s rest ih =>
      show itemsOfStatement s ++ itemsOfBody (rest ++ body') = _
      rw [ih, ← List.append_assoc]
      rfl

/-- A statement that is no text starts and ends with a tag. -/
theorem exists_tag_itemsOfStatement {s : Statement} (hs : ∀ c, s ≠ .content c) :
    (∃ t row, itemsOfStatement s = .tag t :: row) ∧
      ∃ row t, itemsOfStatement s = row ++ [.tag t] := by
  cases s with
  | content c => exact absurd rfl (hs c)
  | mustache _ | decorator _ | inclusion _ | comment _ => exact ⟨⟨_, _, rfl⟩, [], _, rfl⟩
  | block node | decoratorBlock node =>
      obtain ⟨call, main, inverse, opening, middle, closing, loc⟩ := node
      refine ⟨⟨_, _, rfl⟩, Strip.item opening true :: (itemsOfSection main ++
        ((if main.isSome && inverse.isSome then [Strip.item middle true] else []) ++
          itemsOfSection inverse)), ⟨closing.before, closing.after, true⟩, ?_⟩
      simp only [itemsOfStatement, List.cons_append, List.append_assoc]
      rfl
  | inclusionBlock node =>
      obtain ⟨call, main, opening, closing, loc⟩ := node
      exact ⟨⟨_, _, rfl⟩, Strip.item opening true :: itemsOfProgram main, _, rfl⟩

theorem itemsOfStatement_ne_nil (s : Statement) : itemsOfStatement s ≠ [] := by
  rcases s.content_or_ne with ⟨c, rfl⟩ | hs
  · exact List.cons_ne_nil _ _
  · obtain ⟨⟨t, row, h⟩, -⟩ := exists_tag_itemsOfStatement hs
    rw [h]
    exact List.cons_ne_nil _ _

theorem isEmpty_itemsOfBody_append {root : Bool} {outer : List Item} (h : Outer root outer)
    (body : List Statement) : (itemsOfBody body ++ outer).isEmpty = (root && body.isEmpty) := by
  cases body with
  | nil => cases h <;> rfl
  | cons s rest =>
      have hne : itemsOfBody (s :: rest) ++ outer ≠ [] := by
        show (itemsOfStatement s ++ itemsOfBody rest) ++ outer ≠ []
        simp [itemsOfStatement_ne_nil s]
      rw [List.isEmpty_eq_false_iff.mpr hne]
      exact (Bool.and_false root).symm

theorem rowStarts_itemsOfBody {root : Bool} {outer : List Item} (h : Outer root outer)
    (body : List Statement) : rowStarts (itemsOfBody body ++ outer) = lineStarts root body := by
  cases body with
  | nil => cases h <;> rfl
  | cons s rest =>
      rcases s.content_or_ne with ⟨c, rfl⟩ | hs
      · show (c.written.startsLine || ((itemsOfBody rest ++ outer).isEmpty && _)) = _
        rw [isEmpty_itemsOfBody_append h]
        rfl
      · obtain ⟨⟨t, row, ht⟩, -⟩ := exists_tag_itemsOfStatement hs
        show rowStarts ((itemsOfStatement s ++ itemsOfBody rest) ++ outer) = _
        rw [ht]
        cases s with
        | content c => exact absurd rfl (hs c)
        | _ => rfl

theorem rowEnds_itemsOfBody {root : Bool} {outer : List Item} (h : Outer root outer)
    (body : List Statement) :
    rowEnds ((itemsOfBody body).reverse ++ outer) = lineEnds root body.reverse := by
  rcases List.eq_nil_or_concat' body with rfl | ⟨init, s, rfl⟩
  · cases h <;> rfl
  · rw [itemsOfBody_append, List.reverse_append, List.reverse_append, List.append_assoc]
    rcases s.content_or_ne with ⟨c, rfl⟩ | hs
    · have hempty : ((itemsOfBody init).reverse ++ outer).isEmpty =
          (root && init.reverse.isEmpty) := by
        cases h with
        | root =>
            have hinit := isEmpty_itemsOfBody_append .root init
            simpa using hinit
        | inner t more => simp
      show (c.written.endsLine || (((itemsOfBody init).reverse ++ outer).isEmpty && _)) = _
      rw [hempty]
      rfl
    · obtain ⟨-, row, t, ht⟩ := exists_tag_itemsOfStatement hs
      have hlast : itemsOfBody [s] = row ++ [.tag t] := by
        rw [← ht]
        exact List.append_nil _
      rw [hlast, List.reverse_append]
      cases s with
      | content c => exact absurd rfl (hs c)
      | _ => rfl

/-! ## The row of a tree as it is written -/

/-- The statements of a section, if it is there. -/
def bodyOfSection : Option Program → List Statement
  | none => []
  | some p => p.body

theorem itemsOfProgram_eq (p : Program) : itemsOfProgram p = itemsOfBody p.body := by
  obtain ⟨body, blockParams, chained, loc⟩ := p
  rfl

theorem rowStarts_itemsOfProgram {outer : List Item} (h : Outer false outer) (p : Program) :
    rowStarts (itemsOfProgram p ++ outer) = lineStarts false p.body := by
  rw [itemsOfProgram_eq]
  exact rowStarts_itemsOfBody h p.body

theorem rowEnds_itemsOfProgram {outer : List Item} (h : Outer false outer) (p : Program) :
    rowEnds ((itemsOfProgram p).reverse ++ outer) = lineEnds false p.body.reverse := by
  rw [itemsOfProgram_eq]
  exact rowEnds_itemsOfBody h p.body

/-- What a block reports about its tags, where there are no else chains. -/
def blockStrip (opening closing : Strip) (main inverse : Option Program) : Strip :=
  { before := opening.before
    after := closing.after
    openStandalone := lineStarts false (bodyOfSection (main.or inverse))
    closeStandalone := lineEnds false (bodyOfSection (inverse.or main)).reverse }

theorem trimBlock_strip (i : Bool) {m : Bool} {main inverse : Option Program}
    (h : Section.RawInverse false m inverse) (opening middle closing : Strip) :
    (trimBlock i opening middle closing (bodyOf i main) (bodyOf i inverse)).2.2 =
      blockStrip opening closing main inverse := by
  cases main with
  | some p =>
      rw [trimBlock_some, report_of_trimsTo (trimsTo_program i false p) (trimsTo_bodyOf i inverse)]
      cases h with
      | none => rfl
      | plain _ => rfl
      | link hchains => cases hchains
  | none =>
      cases inverse with
      | none => rfl
      | some q =>
          show report opening closing (program i false q) none = _
          rw [report_of_trimsTo (trimsTo_program i false q) .none]
          rfl

section

variable {i root : Bool} {before rest : List Statement} {back ahead : List Item}

/-- An opening tag with the verdict on its block. -/
theorem opening_standsAlone (hback : rowEnds back = lineEnds root before) {row : List Item}
    {opening closing : Strip} {main inverse : Option Program}
    (hrow : rowStarts row = lineStarts false (bodyOfSection (main.or inverse))) :
    Tag.standsAlone i ⟨opening.before, opening.after, true⟩ back row =
      (judge i root (blockStrip opening closing main inverse) before rest).openAlone := by
  simp only [Tag.standsAlone, hback, hrow, judge, blockStrip, Bool.and_true, Bool.and_assoc]
  rw [Bool.and_comm (lineEnds root before)]

/-- A closing tag with the verdict on its block. -/
theorem closing_standsAlone (hahead : rowStarts ahead = lineStarts root rest) {row : List Item}
    {opening closing : Strip} {main inverse : Option Program}
    (hrow : rowEnds row = lineEnds false (bodyOfSection (inverse.or main)).reverse) :
    Tag.standsAlone i ⟨closing.before, closing.after, true⟩ row ahead =
      (judge i root (blockStrip opening closing main inverse) before rest).closeAlone := by
  simp only [Tag.standsAlone, hahead, hrow, judge, blockStrip, Bool.and_true, Bool.and_assoc]

/-- In a row, a section between two tags gives its own pieces, whatever stands
behind those tags. -/
def RowOf (i : Bool) (p : Program) : Prop :=
  ∀ back ahead : List Item, Outer false back → Outer false ahead →
    rowPieces i back (itemsOfProgram p ++ ahead) =
      (Piece.ofProgram i false p).flatten ++
        rowPieces i ((itemsOfProgram p).reverse ++ back) ahead

/-- The items of a block. -/
def blockItems (opening middle closing : Strip) (main inverse : Option Program) : List Item :=
  Strip.item opening true :: (itemsOfSection main ++
    ((if main.isSome && inverse.isSome then [Strip.item middle true] else []) ++
      (itemsOfSection inverse ++ [Strip.item closing true])))

theorem rowPieces_tag (i : Bool) (strip : Strip) (back ahead : List Item) :
    rowPieces i back (Strip.item strip true :: ahead) =
      .tag (.of strip.before (Tag.standsAlone i ⟨strip.before, strip.after, true⟩ back ahead))
          (.of strip.after (Tag.standsAlone i ⟨strip.before, strip.after, true⟩ back ahead)) ::
        rowPieces i (Strip.item strip true :: back) ahead := rfl

/-- An else tag between two sections. -/
theorem middle_standsAlone (i : Bool) {p q : Program} (hq : q.chained = false) (middle : Strip)
    {back ahead : List Item} (hback : Outer false back) (hahead : Outer false ahead) :
    Tag.standsAlone i ⟨middle.before, middle.after, true⟩ ((itemsOfProgram p).reverse ++ back)
      (itemsOfProgram q ++ ahead) = (!i && elseAlone p q) := by
  have hfirst : firstSection? q = some q.body := by
    rw [firstSection?, hq]
    rfl
  simp only [Tag.standsAlone, rowEnds_itemsOfProgram hback, rowStarts_itemsOfProgram hahead,
    elseAlone, hfirst, Option.any_some, Bool.and_true, Bool.and_assoc]

theorem rowPieces_block {main inverse : Option Program}
    (hinverse : Section.RawInverse false main.isSome inverse)
    (hmain : ∀ p, main = some p → RowOf i p) (helse : ∀ q, inverse = some q → RowOf i q)
    (opening middle closing : Strip) (hback : rowEnds back = lineEnds root before)
    (hahead : rowStarts ahead = lineStarts root rest) :
    let v := judge i root (blockStrip opening closing main inverse) before rest
    rowPieces i back (blockItems opening middle closing main inverse ++ ahead) =
      (.tag v.before (.of opening.after v.openAlone) ::
        (Piece.ofSection i main ++
          Piece.ofInverse i middle closing false v.closeAlone v.after main inverse)) ++
        rowPieces i ((blockItems opening middle closing main inverse).reverse ++ back) ahead := by
  intro v
  have hbefore : v.before = .of opening.before v.openAlone := by
    simp [Verdict.before, Verdict.lineBefore, v, judge, blockStrip]
  have hafter : v.after = .of closing.after v.closeAlone := by
    simp [Verdict.after, Verdict.lineAfter, v, judge, blockStrip]
  have hopen {row : List Item}
      (hrow : rowStarts row = lineStarts false (bodyOfSection (main.or inverse))) :
      rowPieces i back (Strip.item opening true :: row) =
        .tag v.before (.of opening.after v.openAlone) ::
          rowPieces i (Strip.item opening true :: back) row := by
    rw [rowPieces_tag, opening_standsAlone hback hrow, hbefore]
  have hclose {row : List Item}
      (hrow : rowEnds row = lineEnds false (bodyOfSection (inverse.or main)).reverse) :
      rowPieces i row (Strip.item closing true :: ahead) =
        .tag (.of closing.before v.closeAlone) v.after ::
          rowPieces i (Strip.item closing true :: row) ahead := by
    rw [rowPieces_tag, closing_standsAlone hahead hrow, hafter]
  cases main with
  | some p =>
      cases inverse with
      | some q =>
          have hq : q.chained = false := by
            cases hinverse with
            | plain _ => rfl
            | link hchains => cases hchains
          show rowPieces i back (Strip.item opening true :: (itemsOfProgram p ++
            (Strip.item middle true :: (itemsOfProgram q ++ [Strip.item closing true]))) ++ ahead)
              = _
          simp only [List.cons_append, List.append_assoc, List.nil_append]
          rw [hopen (rowStarts_itemsOfProgram (.item _ _ _) p),
            hmain p rfl _ _ (.item _ _ _) (.item _ _ _), rowPieces_tag,
            middle_standsAlone i hq middle (.item _ _ _) (.item _ _ _),
            helse q rfl _ _ (.item _ _ _) (.item _ _ _),
            hclose (rowEnds_itemsOfProgram (.item _ _ _) q)]
          obtain ⟨body, blockParams, chained, loc⟩ := q
          obtain rfl : chained = false := hq
          simp [Piece.ofSection, Piece.ofInverse, blockItems, itemsOfSection, Piece.ofProgram]
      | none =>
          show rowPieces i back (Strip.item opening true :: (itemsOfProgram p ++
            [Strip.item closing true]) ++ ahead) = _
          simp only [List.cons_append, List.append_assoc, List.nil_append]
          rw [hopen (rowStarts_itemsOfProgram (.item _ _ _) p),
            hmain p rfl _ _ (.item _ _ _) (.item _ _ _),
            hclose (rowEnds_itemsOfProgram (.item _ _ _) p)]
          simp [Piece.ofSection, Piece.ofInverse, blockItems, itemsOfSection]
  | none =>
      cases inverse with
      | some q =>
          show rowPieces i back (Strip.item opening true :: (itemsOfProgram q ++
            [Strip.item closing true]) ++ ahead) = _
          simp only [List.cons_append, List.append_assoc, List.nil_append]
          rw [hopen (rowStarts_itemsOfProgram (.item _ _ _) q),
            helse q rfl _ _ (.item _ _ _) (.item _ _ _),
            hclose (rowEnds_itemsOfProgram (.item _ _ _) q)]
          obtain ⟨body, blockParams, chained, loc⟩ := q
          simp [Piece.ofSection, Piece.ofInverse, blockItems, itemsOfSection, Piece.ofProgram]
      | none =>
          show rowPieces i back (Strip.item opening true :: [Strip.item closing true] ++ ahead) = _
          simp only [List.cons_append, List.nil_append]
          rw [hopen rfl, hclose rfl]
          simp [Piece.ofSection, Piece.ofInverse, blockItems, itemsOfSection]

/-- A tag that is no block gives its piece in the row. -/
theorem rowPieces_inline (hback : rowEnds back = lineEnds root before)
    (hahead : rowStarts ahead = lineStarts root rest) (strip : Strip) (lone : Bool) :
    let v := judge i root { before := strip.before, after := strip.after, inlineStandalone := lone }
      before rest
    rowPieces i back (Strip.item strip lone :: ahead) =
      .tag v.before v.after :: rowPieces i (Strip.item strip lone :: back) ahead := by
  simp [Strip.item, rowPieces, Tag.standsAlone, hback, hahead, judge, Verdict.before,
    Verdict.after, Verdict.lineBefore, Verdict.lineAfter]

end

variable {i : Bool}

mutual

/-- A section of a template without else chains gives its own pieces in the
row. -/
theorem rowPieces_program : ∀ {p : Program}, Program.Raw false p → RowOf i p
  | _, .mk hb => fun _ _ hback hahead => rowPieces_body hb hback hahead []

theorem rowPieces_body : ∀ {body : List Statement}, Body.Raw false body →
    ∀ {root : Bool} {back ahead : List Item}, Outer root back → Outer root ahead →
      ∀ before : List Statement,
        rowPieces i ((itemsOfBody before.reverse).reverse ++ back) (itemsOfBody body ++ ahead) =
          (Piece.ofBody i root before body).flatten ++
            rowPieces i ((itemsOfBody body).reverse ++
              ((itemsOfBody before.reverse).reverse ++ back)) ahead
  | _, .nil, _, _, _, _, _, _ => rfl
  | s :: rest, .cons hs hr, root, back, ahead, hback, hahead, before => by
      have hends : rowEnds ((itemsOfBody before.reverse).reverse ++ back) =
          lineEnds root before := by
        rw [rowEnds_itemsOfBody hback, List.reverse_reverse]
      have hmore : (itemsOfStatement s).reverse ++ ((itemsOfBody before.reverse).reverse ++ back) =
          (itemsOfBody (s :: before).reverse).reverse ++ back := by
        have hlast : itemsOfBody [s] = itemsOfStatement s := List.append_nil _
        rw [List.reverse_cons, itemsOfBody_append, hlast, List.reverse_append, List.append_assoc]
      show rowPieces i _ ((itemsOfStatement s ++ itemsOfBody rest) ++ ahead) =
        (Piece.ofStatement i _ s ++ _) ++
          rowPieces i ((itemsOfStatement s ++ itemsOfBody rest).reverse ++ _) ahead
      rw [List.append_assoc, rowPieces_statement hs hends (rowStarts_itemsOfBody hahead rest),
        hmore, rowPieces_body hr hback hahead (s :: before), List.append_assoc,
        List.reverse_append, List.append_assoc, hmore]

theorem rowPieces_statement : ∀ {s : Statement}, Statement.Raw false s →
    ∀ {root : Bool} {before rest : List Statement} {back ahead : List Item},
      rowEnds back = lineEnds root before → rowStarts ahead = lineStarts root rest →
        rowPieces i back (itemsOfStatement s ++ ahead) =
          Piece.ofStatement i (judge i root ((settle i s).2.getD {}) before rest) s ++
            rowPieces i ((itemsOfStatement s).reverse ++ back) ahead
  | _, .content _, _, _, _, _, _, _, _ => rfl
  | .mustache node, .mustache hplain, _, _, _, _, _, hback, hahead => by
      have htag := rowPieces_inline (i := i) hback hahead node.strip false
      rw [← hplain.eq] at htag
      exact htag
  | .decorator node, .decorator hplain, _, _, _, _, _, hback, hahead => by
      have htag := rowPieces_inline (i := i) hback hahead node.strip false
      rw [← hplain.eq] at htag
      exact htag
  | .inclusion node, .inclusion _, _, _, _, _, _, hback, hahead =>
      rowPieces_inline hback hahead node.strip true
  | .comment node, .comment _, _, _, _, _, _, hback, hahead =>
      rowPieces_inline hback hahead node.strip true
  | .block ⟨_, _, _, opening, middle, closing, _⟩, .block _ hmain hinverse, _, _, _, _, _, hback,
      hahead => by
      show _ = Piece.ofStatement _ (judge _ _ (trimBlock ..).2.2 _ _) _ ++ _
      rw [trimBlock_strip _ hinverse]
      exact rowPieces_block hinverse (rowPieces_section hmain) (rowPieces_inverse hinverse)
        opening middle closing hback hahead
  | .decoratorBlock ⟨_, _, _, opening, middle, closing, _⟩, .decoratorBlock _ hmain hinverse, _,
      _, _, _, _, hback, hahead => by
      show _ = Piece.ofStatement _ (judge _ _ (trimBlock ..).2.2 _ _) _ ++ _
      rw [trimBlock_strip _ hinverse]
      exact rowPieces_block hinverse (rowPieces_section hmain) (rowPieces_inverse hinverse)
        opening middle closing hback hahead
  | .inclusionBlock ⟨_, main, opening, closing, _⟩, .inclusionBlock _ hmain, _, _, _, _, _, hback,
      hahead => by
      have hnone : Section.RawInverse false (some main).isSome none := .none
      have helse : ∀ q, none = some q → RowOf i q := fun _ h => nomatch h
      have hblock := rowPieces_block hnone (rowPieces_section (.some hmain)) helse opening {}
        closing hback hahead
      rw [← trimBlock_strip i hnone opening {} closing] at hblock
      simp only [Piece.ofInverse, Bool.or_false] at hblock
      exact hblock

theorem rowPieces_section : ∀ {main : Option Program}, Section.Raw false main →
    ∀ p, main = some p → RowOf i p
  | _, .none, _, h => nomatch h
  | _, .some hp, _, h => Option.some.inj h ▸ rowPieces_program hp

theorem rowPieces_inverse : ∀ {m : Bool} {inverse : Option Program},
    Section.RawInverse false m inverse → ∀ q, inverse = some q → RowOf i q
  | _, _, .none, _, h => nomatch h
  | _, _, .plain hb, _, h => Option.some.inj h ▸
      fun _ _ hback hahead => rowPieces_body hb hback hahead []
  | _, _, .link hchains _ _ _, _, _ => nomatch hchains

end

/-! ## The theorem -/

/-- In a template without else chains, a new control leaves of every text what
the rule leaves of it. -/
theorem Control.contents_normalize (i : Bool) {p : Program} (h : Program.Raw false p) :
    (({ ignoreStandalone := i } : Control).normalize p).1.contents.map Content.value =
      localTexts i [] (itemsOfProgram p) := by
  have hcut := (cutBody_program (i := i) h true).cutBy_program
  have hrow : rowPieces i [] (itemsOfProgram p) = (Piece.ofProgram i true p).flatten := by
    obtain ⟨body, blockParams, chained, loc⟩ := p
    cases h with
    | mk hb =>
        have hpieces := rowPieces_body (i := i) hb .root .root []
        simp only [List.append_nil] at hpieces
        exact hpieces.trans (List.append_nil _)
  rw [← hrow] at hcut
  refine value_of_cutBy hcut fun c after hafter => ?_
  rfl

/-- A block whose opening tag stands alone and whose else tag has a marker. -/
theorem Control.contents_normalize_block :
    let loc : Location := ⟨none, ⟨1, 0⟩, ⟨1, 0⟩⟩
    let text (t : String) : Statement := .content (.untrimmed t.toList loc)
    let body (t : String) : Option Program := some ⟨[text t], none, false, none⟩
    let p : Program :=
      ⟨[text "a\n ", .block ⟨⟨.undefined loc, [], none⟩, body "\n b ", body " c", {},
          { before := true }, {}, loc⟩, text "\n"], none, false, none⟩
    (({ ignoreStandalone := false } : Control).normalize p).1.contents.map Content.value =
      ["a\n".toList, " b".toList, " c".toList, "\n".toList] := by
  intro loc text body p
  have htext (t : String) : Body.Raw false [text t] := .cons (.content ⟨rfl, rfl, rfl⟩) .nil
  have hblock : Body.Raw false (p.body.drop 1) :=
    .cons (.block ⟨⟨rfl, rfl, rfl⟩, ⟨rfl, rfl, rfl⟩, ⟨rfl, rfl, rfl⟩⟩ (.some (.mk (htext _)))
      (.plain (htext _))) (htext _)
  refine (contents_normalize false (.mk (.cons (.content ⟨rfl, rfl, rfl⟩) hblock))).trans ?_
  decide

end Layout
end Stache
