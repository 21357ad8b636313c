import Mathlib
import Stache.Proofs.Grammar.Spelled
import Stache.Proofs.Layout.Cuts
import Stache.Proofs.Layout.Markers

/-!
# Markers in else chains

With the padding around lone tags kept, nothing but markers trims the texts of a
template.  The markers that decide are those of `decidedRow`, and they are the
ones next to the texts wherever a template has no else chain.  A `~` in a chain
does what it says for a whole template just if no white space is left in front
of a tag whose own marker does not decide (`contents_parse`).
-/

namespace Stache
namespace Layout

/-! ## The pieces of a row -/

/-- A piece of a tree is cut by the markers of a part and by nothing else. -/
inductive Piece.Marks : Piece → Part → Prop where
  | text (c : Content) : Piece.Marks (.text c) (.text c.written)
  | tag (role : Role) (before after : Bool) :
      Piece.Marks (.tag (.of before false) (.of after false)) (.tag role before after)

/-- In front of `ahead`, a row between two states of open blocks gives pieces
that are cut by the markers that decide. -/
def Decides (opened : List OpenBlock) (row : List Part) (ds : List Piece) (opened' : List OpenBlock)
    (ahead : List Part) : Prop :=
  ∃ parts, List.Forall₂ Piece.Marks ds parts ∧
    decidedRow opened (row ++ ahead) = parts ++ decidedRow opened' ahead

section

variable {opened opened' opened'' : List OpenBlock} {row row' ahead : List Part}
  {ds ds' : List Piece}

theorem Decides.nil (opened : List OpenBlock) (ahead : List Part) :
    Decides opened [] [] opened ahead :=
  ⟨[], .nil, rfl⟩

/-- The pieces of a row are those of its parts, the first part with the second ahead. -/
theorem Decides.append (h : Decides opened row ds opened' (row' ++ ahead))
    (h' : Decides opened' row' ds' opened'' ahead) :
    Decides opened (row ++ row') (ds ++ ds') opened'' ahead := by
  obtain ⟨parts, hparts, heq⟩ := h
  obtain ⟨parts', hparts', heq'⟩ := h'
  refine ⟨parts ++ parts', List.rel_append hparts hparts', ?_⟩
  rw [List.append_assoc, heq, heq', List.append_assoc]

/-- A text is a piece of its own. -/
theorem Decides.text (c : Content) (opened : List OpenBlock) (ahead : List Part) :
    Decides opened [.text c.written] [.text c] opened ahead := ⟨[_], .cons (.text c) .nil, rfl⟩

/-- A tag with the marker that decides in front of it. -/
theorem Decides.cons {strip : Strip} {role : Role} {before : Bool}
    (hbefore : decidingMarker opened role strip.before (row ++ ahead) = before)
    (h : Decides (openedBehind role strip.before opened) row ds opened' ahead) :
    Decides opened (strip.part role :: row)
      (.tag (.of before false) (.of strip.after false) :: ds) opened' ahead := by
  subst hbefore
  obtain ⟨parts, hparts, heq⟩ := h
  exact ⟨_ :: parts, .cons (.tag _ _ _) hparts, congrArg (List.cons _) heq⟩

end

/-! ## Blocks -/

/-- A block reports the outer markers of its tags, however its sections are trimmed. -/
theorem trimBlock_marks (i : Bool) (opening middle closing : Strip) (p q : Option Program) :
    (trimBlock i opening middle closing p q).2.2.before = opening.before ∧
      (trimBlock i opening middle closing p q).2.2.after = closing.after := by
  cases p with
  | some p => cases q <;> exact ⟨rfl, rfl⟩
  | none => cases q <;> exact ⟨rfl, rfl⟩

/-- The pieces of a block where tags that stand alone are left alone. -/
def blockPieces : Block → List Piece
  | ⟨_, main, inverse, opening, middle, closing, _⟩ =>
      .tag (.of opening.before false) (.of opening.after false) ::
        (Piece.ofSection true main ++
          Piece.ofInverse true middle closing false false (.of closing.after false) main inverse)

/-- The pieces of a block are those of its tags and its sections. -/
theorem ofStatement_block (root : Bool) (before rest : List Statement) (node : Block) :
    Piece.ofStatement true
        (judge true root ((settle true (.block node)).2.getD {}) before rest) (.block node) =
      blockPieces node := by
  obtain ⟨call, main, inverse, opening, middle, closing, loc⟩ := node
  obtain ⟨hbefore, hafter⟩ := trimBlock_marks true opening middle closing (bodyOf true main)
    (bodyOf true inverse)
  rw [blockPieces, ← hbefore, ← hafter]
  rfl

theorem ofStatement_decoratorBlock (root : Bool) (before rest : List Statement) (node : Block) :
    Piece.ofStatement true
        (judge true root ((settle true (.decoratorBlock node)).2.getD {}) before rest)
        (.decoratorBlock node) = blockPieces node := by
  rw [← ofStatement_block root before rest node]
  obtain ⟨call, main, inverse, opening, middle, closing, loc⟩ := node
  rfl

section

variable {opened : List OpenBlock} {inside : List Bool} {ahead : List Part}

/-- The else tags of a block are told from those around it. -/
theorem plainElses_opening {opening : Strip} {inverted : Bool} {row row' : List Part}
    (h : plainElses inside (opening.part (.opening inverted) :: (row ++ row') ++ ahead) = true) :
    plainElses (inverted :: inside) (row ++ (row' ++ ahead)) = true := by
  rw [← List.append_assoc]
  exact h

/-- A body between an opening tag and a closing tag. -/
theorem Decides.enclosed {row : List Part} {ds : List Piece} (inverted : Bool)
    (opening closing : Strip)
    (h : Decides (⟨[], false⟩ :: opened) row ds (⟨[], false⟩ :: opened)
      (closing.part .closing :: ahead)) :
    Decides opened (opening.part (.opening inverted) :: (row ++ [closing.part .closing]))
      (.tag (.of opening.before false) (.of opening.after false) ::
        (ds ++ [.tag (.of closing.before false) (.of closing.after false)])) opened ahead := by
  have hclosing : Decides (⟨[], false⟩ :: opened) [closing.part .closing] _ opened ahead :=
    .cons (Bool.or_false _) (.nil opened ahead)
  exact .cons rfl (Decides.append h hclosing)

mutual

/-- The pieces of a program are those of its row. -/
theorem decides_program : ∀ {row : List Part} {p : Program}, Program.Spelled row p →
    ∀ (root : Bool) {opened : List OpenBlock} {inside : List Bool} {ahead : List Part},
      plainElses inside (row ++ ahead) = true →
        Decides opened row (Piece.ofProgram true root p).flatten opened ahead
  | _, _, .mk hb, root, _, _, _, hplain => decides_body hb root [] hplain

/-- The pieces of statements are those of their row. -/
theorem decides_body : ∀ {row : List Part} {body : List Statement}, Body.Spelled row body →
    ∀ (root : Bool) (before : List Statement) {opened : List OpenBlock} {inside : List Bool}
      {ahead : List Part}, plainElses inside (row ++ ahead) = true →
        Decides opened row (Piece.ofBody true root before body).flatten opened ahead
  | _, _, .nil, _, _, opened, _, ahead, _ => .nil opened ahead
  | _, _, .cons hs hr, root, before, _, _, _, hplain => by
      rw [List.append_assoc] at hplain
      exact (decides_statement hs root before _ hplain).append
        (decides_body hr root _ ((hs.balanced false).plainElses hplain))

/-- The pieces of a statement are those of its row. -/
theorem decides_statement : ∀ {row : List Part} {s : Statement}, Statement.Spelled row s →
    ∀ (root : Bool) (before rest : List Statement) {opened : List OpenBlock} {inside : List Bool}
      {ahead : List Part}, plainElses inside (row ++ ahead) = true →
        Decides opened row
          (Piece.ofStatement true
            (judge true root ((settle true s).2.getD {}) before rest) s) opened ahead
  | _, _, .content _, _, _, _, opened, _, ahead, _ => .text _ opened ahead
  | _, _, .mustache _, _, _, _, _, _, _, _ | _, _, .decorator _, _, _, _, _, _, _, _
  | _, _, .inclusion _, _, _, _, _, _, _, _ | _, _, .comment _, _, _, _, _, _, _, _ =>
      .cons rfl (.nil _ _)
  | _, _, .block h, root, before, rest, _, _, _, hplain => by
      rw [ofStatement_block]
      exact decides_block h hplain
  | _, _, .decoratorBlock h, root, before, rest, _, _, _, hplain => by
      rw [ofStatement_decoratorBlock]
      exact decides_block h hplain
  | _, _, .inclusionBlock _ hp, _, _, _, _, inside, _, hplain => by
      have hbody := plainElses_opening hplain
      exact .enclosed false _ _ (decides_program hp false hbody)

/-- The pieces of a block are those of its row, with the markers that each section ends
at. -/
theorem decides_block : ∀ {row : List Part} {node : Block}, Block.Spelled row node →
    ∀ {opened : List OpenBlock} {inside : List Bool} {ahead : List Part},
      plainElses inside (row ++ ahead) = true →
        Decides opened row (blockPieces node) opened ahead
  | _, _, .main _ hp hi, opened, inside, ahead, hplain => by
      have hbody := plainElses_opening hplain
      have helse := (hp.balanced false).plainElses hbody
      rw [List.append_assoc] at helse
      exact .cons rfl ((decides_program hp false hbody).append (decides_section hi _ rfl rfl helse))
  | _, _, .inverted _ hp, opened, _, ahead, hplain => by
      have hbody := plainElses_opening hplain
      have hdecides : Decides (⟨[], false⟩ :: opened) _ _ _ _ := decides_program hp false hbody
      cases hp with
      | mk _ => exact .enclosed true _ _ hdecides
  | _, _, .invertedElse _ hp hq, opened, inside, ahead, hplain => by
      have hbody := plainElses_opening hplain
      exact nomatch (hp.balanced false).plainElses hbody

/-- The pieces of a chain are those of its row, link by link. -/
theorem decides_section : ∀ {middle next : Strip} {row : List Part} {inverse : Option Program},
    Section.Spelled middle next row inverse →
    ∀ {closing last : Strip} {links : List Bool} (p : Program) {opened : List OpenBlock}
      {inside : List Bool} {ahead : List Part},
      closing.before = closingMarker last.before links →
      next.before = closingMarker last.before (middle.before :: links) →
      plainElses inside (row ++ last.part .closing :: ahead) = true →
        Decides (⟨links, false⟩ :: opened) (row ++ [last.part .closing])
          (Piece.ofInverse true middle closing (handedMarker last.before links) false
            (.of last.after false) (some p) inverse)
          opened ahead
  | _, _, _, _, .none, closing, last, links, _, opened, _, ahead, hclosing, _, _ => by
      show Decides _ [last.part .closing] [.tag (.of (closing.before || _) false) _] opened ahead
      rw [hclosing]
      exact .cons rfl (.nil opened ahead)
  | middle, _, _, _, .plain hp, closing, last, links, _, opened, _, ahead, hclosing, _, hplain => by
      have hbody := (Bool.and_eq_true_iff.mp hplain).2
      have hdecides : Decides (⟨links, true⟩ :: opened) _ _ _ _ := decides_program hp false hbody
      have hlast : Decides (⟨links, true⟩ :: opened) [last.part .closing]
          [.tag (.of closing.before false) (.of last.after false)] opened ahead := by
        rw [hclosing]
        exact .cons (Bool.or_false _) (.nil opened ahead)
      have hmark := closingMark_closing (hp.balanced true) last ahead
      cases hp with
      | mk _ =>
          refine .cons ?_ (Decides.append hdecides hlast)
          exact congrArg (fun z => middle.before || handedMarker z links) hmark
  | middle, next, _, some ⟨[.block ⟨_, some p, inverse, _, middle', _, _⟩], _, _, _⟩, .link _ hp hi,
      closing, last, links, _, opened, inside, ahead, hclosing, hnext, hplain => by
      have hbody : plainElses inside ((_ ++ _) ++ last.part .closing :: ahead) = true := hplain
      rw [List.append_assoc] at hbody
      have helse := (hp.balanced true).plainElses hbody
      have hsections : Decides (⟨middle.before :: links, false⟩ :: opened)
          (_ ++ (_ ++ [last.part .closing])) _ opened ahead :=
        Decides.append (decides_program hp false (by simpa using hbody))
          (decides_section hi p hnext rfl helse)
      have hmark := closingMark_closing ((hp.balanced true).append hi.balanced) last ahead
      show Decides (⟨links, false⟩ :: opened)
        (middle.part .link :: (_ ++ _) ++ [last.part .closing])
        (.tag (.of (middle.before || handedMarker last.before links) false)
            (.of (middle.after || middle.after) false) ::
          ((Piece.ofProgram true false p).flatten ++
            Piece.ofInverse true middle' next closing.before false (.of last.after false) (some p)
              inverse)) opened ahead
      rw [Bool.or_self, hclosing, List.cons_append]
      refine .cons (congrArg (fun z => middle.before || handedMarker z links) hmark) ?_
      rw [List.append_assoc]
      exact hsections

end

end

/-! ## What is left of the texts -/

/-- The first text is cut at its end by the marker of the tag behind it. -/
theorem headCut_marks {ds : List Piece} {row : List Part} (h : List.Forall₂ Piece.Marks ds row) :
    headCut .none ds = .of (markAhead row) false := by
  cases h with
  | nil => rfl
  | cons hd _ => cases hd <;> rfl

/-- A text between two tags is trimmed at the sides that are marked. -/
theorem trimMarked_eq (behind ahead : Bool) (t : Text) :
    (Cut.of ahead false).atEnd ((Cut.of behind false).atStart t) = t.trimMarked behind ahead := by
  cases behind <;> cases ahead <;> rfl

/-- **Each text of a row is left as its neighbours mark it.** -/
theorem texts_of_marks {ds : List Piece} {row : List Part}
    (hmarks : List.Forall₂ Piece.Marks ds row) {behind : Bool} {cs : List Content}
    (h : CutBy (.of behind false) ds .none cs) :
    cs.map Content.written = writtenTexts row ∧ cs.map Content.value = markedTexts behind row := by
  induction hmarks generalizing behind cs with
  | nil =>
      cases h with
      | nil => exact ⟨rfl, rfl⟩
  | cons hd hds ih =>
      cases hd with
      | text c =>
          cases h with
          | text hcut hrest =>
              have hrest : CutBy (.of false false) _ .none _ := hrest
              obtain ⟨hwritten, hvalue⟩ := ih hrest
              have htext := hcut.value
              rw [headCut_marks hds, trimMarked_eq] at htext
              constructor
              · rw [List.map_cons, hwritten, hcut.written]
                rfl
              · rw [List.map_cons, hvalue, htext]
                rfl
      | tag role before after =>
          cases h with
          | tag hrest => exact ih hrest

/-- A new control that leaves padding alone trims each text by the markers that
decide. -/
theorem texts_normalize {row : List Part} {p : Program} (h : Program.Spelled row p)
    (hplain : plainElses [] row = true) :
    (program true true p).contents.map Content.written = writtenTexts row ∧
      (program true true p).contents.map Content.value =
        markedTexts false (decidedRow [] row) := by
  have hcut := (cutBody_program (i := true) h.raw true).cutBy_program
  have hdecides : Decides [] row (Piece.ofProgram true true p).flatten [] [] := by
    rw [← List.append_nil row] at hplain
    exact decides_program h true hplain
  obtain ⟨parts, hparts, heq⟩ := hdecides
  have hrow : decidedRow [] row = parts := by
    rw [List.append_nil] at heq
    exact heq.trans (List.append_nil parts)
  rw [← writtenTexts_decidedRow [] row, hrow]
  have hrest : CutBy (.of false false) _ .none _ := hcut
  exact texts_of_marks hparts hrest

/-! ## The theorem -/

/-- What is parsed is the raw tree, normalized. -/
theorem exists_of_parse {o : Options} {text : Text} {p : Program} (h : parse o text = .ok p) :
    ∃ q, parseRaw o text = .ok q ∧ p = program o.ignoreStandalone true q := by
  obtain ⟨q, hraw, rfl⟩ := exists_parseRaw_of_parse h
  exact ⟨q, hraw, rfl⟩

/-- The texts of an accepted template without else sections in inverted blocks,
with the padding around lone tags kept.  They are those of the source, in its
order, and each is trimmed by the markers that decide.  These leave of the texts
what the markers next to them should leave just if they do so in front of every
tag. -/
theorem contents_parse {o : Options} (ho : o.ignoreStandalone = true) {text : Text} {p : Program}
    (h : parse o text = .ok p) (hplain : plainElses [] (o.row text) = true) :
    p.contents.map Content.written = writtenTexts (o.row text) ∧
      p.contents.map Content.value = markedTexts false (decidedRow [] (o.row text)) ∧
      (p.contents.map Content.value = markedTexts false (o.row text) ↔
        ownMarkersDecide false [] (o.row text) = true) := by
  obtain ⟨q, hraw, rfl⟩ := exists_of_parse h
  rw [ho]
  obtain ⟨hwritten, hvalue⟩ := texts_normalize (spelled_of_parseRaw hraw) hplain
  refine ⟨hwritten, hvalue, ?_⟩
  rw [hvalue]
  exact markedTexts_decidedRow_iff false [] (o.row text)

/-- The padding around lone tags is kept. -/
def paddingKept : Options := { ignoreStandalone := true }

/-- The chain `{{#a}}A{{else b}} B {{else}}C{{~/a}}`. -/
def endedChain : Text :=
  "\x7b\x7b#a\x7d\x7dA\x7b\x7belse b\x7d\x7d B \x7b\x7belse\x7d\x7dC\x7b\x7b~/a\x7d\x7d".toList

/-- The marker of its closing tag takes the white space in front of its else
tag, which has no marker. -/
theorem contents_parse_ne :
    plainElses [] (paddingKept.row endedChain) = true ∧
      ∃ p, parse paddingKept endedChain = .ok p ∧
        p.contents.map Content.value = ["A".toList, " B".toList, "C".toList] ∧
        p.contents.map Content.value ≠ markedTexts false (paddingKept.row endedChain) := by
  have hrow : paddingKept.row endedChain =
      [.tag (.opening false) false false, .text "A".toList, .tag .link false false,
        .text " B ".toList, .tag .middle false false, .text "C".toList,
        .tag .closing true false] := by cbv
  have hvalues : (parse paddingKept endedChain).map (fun p => p.contents.map Content.value) =
      .ok ["A".toList, " B".toList, "C".toList] := by cbv
  rw [hrow]
  refine ⟨rfl, ?_⟩
  cases hp : parse paddingKept endedChain with
  | error e =>
      rw [hp] at hvalues
      cases hvalues
  | ok p =>
      rw [hp] at hvalues
      have hvalues : p.contents.map Content.value = ["A".toList, " B".toList, "C".toList] :=
        Except.ok.inj hvalues
      refine ⟨p, rfl, hvalues, ?_⟩
      rw [hvalues]
      decide

/-- The chain `{{#a}}{{else b}}{{else c}}{{else d}} D {{~/a}}`. -/
def openChain : Text :=
  ("\x7b\x7b#a\x7d\x7d\x7b\x7belse b\x7d\x7d\x7b\x7belse c\x7d\x7d" ++
    "\x7b\x7belse d\x7d\x7d D \x7b\x7b~/a\x7d\x7d").toList

/-- The marker of its closing tag takes no white space at all. -/
theorem contents_parse_openChain :
    plainElses [] (paddingKept.row openChain) = true ∧ ∃ p, parse paddingKept openChain = .ok p ∧
      p.contents.map Content.value = [" D ".toList] ∧
      p.contents.map Content.value ≠ markedTexts false (paddingKept.row openChain) := by
  have hrow : paddingKept.row openChain =
      [.tag (.opening false) false false, .tag .link false false, .tag .link false false,
        .tag .link false false, .text " D ".toList, .tag .closing true false] := by cbv
  have hplain : plainElses [] (paddingKept.row openChain) = true := by
    rw [hrow]
    rfl
  have hok : (parse paddingKept openChain).toBool = true := by cbv
  refine ⟨hplain, ?_⟩
  cases hp : parse paddingKept openChain with
  | error e =>
      rw [hp] at hok
      cases hok
  | ok p =>
      obtain ⟨-, hvalues, -⟩ := contents_parse rfl hp hplain
      rw [hrow] at hvalues ⊢
      have hvalues : p.contents.map Content.value = [" D ".toList] := hvalues
      refine ⟨p, rfl, hvalues, ?_⟩
      rw [hvalues]
      decide

end Layout
end Stache
