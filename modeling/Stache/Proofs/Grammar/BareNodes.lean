import Stache.Builder.Statement
import Stache.Proofs.Grammar.Moved
import Stache.Proofs.Tree.Bare

/-!
# What the builder makes, bare

The builder makes a block of its parts, or refuses them.  Which of the two it does, and what the
block is up to places, markers and chains, can be told from the parts up to the same
(`Builder.Fitting`, `Builder.bare_of_block`).  In particular it makes no difference to a bare tree
whether an else section is the next link of a chain or a section that holds this block alone.
-/

namespace Stache

/-! ## Closing names -/

/-- The name closes what was opened. -/
def Expr.ClosedBy (opened : Expr) (closed : Option Text) : Prop :=
  ∃ p, opened = .path p ∧ p.written = closed.getD "undefined".toList

namespace Expr

variable {opened opened' : Expr} {closed : Option Text}

/-- Whether a name closes a block does not depend on places. -/
theorem ClosedBy.of_unlocated (h : opened.ClosedBy closed)
    (hsame : opened'.unlocated = opened.unlocated) : opened'.ClosedBy closed := by
  obtain ⟨p, rfl, hwritten⟩ := h
  cases opened' with
  | path p' =>
      refine ⟨p', rfl, ?_⟩
      rw [← hwritten, ← p'.written_unlocated, ← p.written_unlocated, Expr.path.inj hsame]
  | _ => cases hsame

/-- A call that is equal up to places is closed by the same name. -/
theorem ClosedBy.of_call {called called' : Call} (h : called.head.ClosedBy closed)
    (hsame : called'.unlocated = called.unlocated) : called'.head.ClosedBy closed := by
  refine h.of_unlocated ?_
  rw [← Call.head_unlocated, hsame, Call.head_unlocated]

end Expr

namespace Builder

variable {b : Builder}

/-- The check of names accepts just those that close. -/
theorem checkClose_eq_ok_iff {opened : Expr} {closed : Option Text} {closedAt : Option Location} :
    checkClose opened closed closedAt = .ok () ↔ opened.ClosedBy closed := by
  cases opened with
  | path p =>
      rw [checkClose]
      split
      · next h => exact iff_of_true rfl ⟨p, rfl, h⟩
      · next h =>
          refine iff_of_false (fun h => by cases h) ?_
          rintro ⟨p', ⟨⟩, h'⟩
          exact h h'
  | _ =>
      refine iff_of_false (fun h => by cases h) ?_
      rintro ⟨p', ⟨⟩, -⟩

/-! ## Programs -/

/-- A bare program is its bare statements. -/
theorem bare_program_congr {body body' : List Statement} {loc loc' : Option Location}
    (h : Body.bare body' = Body.bare body) :
    (program body' loc').bare = (program body loc).bare :=
  congrArg (Program.mk · none false none) h

end Builder

/-- The bare program of one statement. -/
def Program.only (node : Statement) : Program := ⟨[node], none, false, none⟩

namespace Builder

theorem bare_single (node : Statement) (loc : Option Location) :
    (program [node] loc).bare = .only node.bare := rfl

theorem bare_chainedProgram (block : Statement) (loc : Option Location) :
    (chainedProgram block loc).bare = .only block.bare := rfl

end Builder

/-! ## Else sections -/

/-- The program starts with a block, so a chain can go on with it. -/
def Program.StartsBlock (p : Program) : Prop := ∃ node rest, p.body = .block node :: rest

/-- Whether a program starts with a block is seen in the bare program. -/
theorem Program.StartsBlock.of_bare {p p' : Program} (h : p.StartsBlock)
    (hsame : p'.bare = p.bare) : p'.StartsBlock := by
  obtain ⟨node, rest, hbody⟩ := h
  have hbare := congrArg Program.body hsame
  rw [Program.body_bare, Program.body_bare, hbody] at hbare
  cases hbody' : p'.body with
  | nil =>
      rw [hbody'] at hbare
      cases hbare
  | cons s rest' =>
      rw [hbody'] at hbare
      cases s with
      | block node' => exact ⟨node', rest', hbody'⟩
      | _ => cases hbare

/-- The else section without places, markers and chains inside. -/
def ElseSection.bare (s : ElseSection) : ElseSection := ⟨{}, s.program.bare, s.chained⟩

/-- The section can be the else section of a block that is a decorator or not. -/
structure ElseSection.Fits (decorator : Bool) (s : ElseSection) : Prop where
  plain : decorator = false
  linked : s.chained = true → s.program.StartsBlock

/-- Whether an else section fits its block is seen in the bare section. -/
theorem ElseSection.Fits.of_bare {decorator : Bool} {s s' : ElseSection} (h : s.Fits decorator)
    (hsame : s'.bare = s.bare) : s'.Fits decorator := by
  obtain ⟨-, hprogram, hchained⟩ := ElseSection.mk.inj hsame
  exact ⟨h.plain, fun hs' => (h.linked (hchained ▸ hs')).of_bare hprogram⟩

namespace Builder

variable {b : Builder}

/-- A link that starts with a block can be closed. -/
theorem exists_closeChain {p : Program} (h : p.StartsBlock) (strip : Strip) :
    ∃ q, closeChain p strip = some q := by
  obtain ⟨node, rest, hbody⟩ := h
  rw [closeChain, hbody]
  exact ⟨_, rfl⟩

/-- A chain that is closed is the same up to its markers. -/
theorem bare_of_closeChain {p q : Program} {strip : Strip} (h : closeChain p strip = some q) :
    p.StartsBlock ∧ q.bare = p.bare := by
  obtain ⟨body, names, chained, loc⟩ := p
  unfold closeChain at h
  dsimp only at h
  split at h
  · next node rest =>
      obtain rfl := Option.some.inj h
      obtain ⟨call, main, inverse, _, _, _, _⟩ := node
      exact ⟨⟨_, _, rfl⟩, rfl⟩
  · cases h

variable {decorator : Bool} {strip : Strip} {loc : Location} {other : Option ElseSection}

/-- An else section that fits is accepted. -/
theorem exists_inverseProgram (h : ∀ s ∈ other, s.Fits decorator) :
    ∃ inverse, inverseProgram decorator strip loc other = .ok inverse := by
  cases other with
  | none => exact ⟨none, rfl⟩
  | some s =>
      obtain ⟨rfl, hlinked⟩ := h s rfl
      rw [inverseProgram, if_neg Bool.false_ne_true]
      split
      · next hchained =>
          obtain ⟨q, hq⟩ := exists_closeChain (hlinked hchained) strip
          rw [hq]
          exact ⟨some q, rfl⟩
      · exact ⟨_, rfl⟩

/-- An else section that is accepted fits, and only its markers change. -/
theorem bare_of_inverseProgram {inverse : Option Program}
    (h : inverseProgram decorator strip loc other = .ok inverse) :
    (∀ s ∈ other, s.Fits decorator) ∧
      Section.bare inverse = Section.bare (other.map ElseSection.program) := by
  cases other with
  | none =>
      obtain rfl := Except.ok.inj h
      exact ⟨nofun, rfl⟩
  | some s =>
      cases decorator with
      | true => cases h
      | false =>
          cases hchained : s.chained with
          | true =>
              obtain ⟨q, hq, rfl⟩ := closeChain_of_inverseProgram hchained h
              obtain ⟨hlinked, hbare⟩ := bare_of_closeChain hq
              refine ⟨?_, congrArg some hbare⟩
              rintro _ ⟨⟩
              exact ⟨rfl, fun _ => hlinked⟩
          | false =>
              obtain rfl := eq_of_inverseProgram hchained h
              refine ⟨?_, rfl⟩
              rintro _ ⟨⟩
              exact ⟨rfl, fun h' => absurd h' (hchained ▸ Bool.false_ne_true)⟩

/-! ## Blocks -/

end Builder

/-- The opening tag without places and markers. -/
def BlockOpening.bare (head : BlockOpening) : BlockOpening :=
  ⟨head.opener, head.call.unlocated, head.blockParams, {}⟩

/-- The closing tag without places and markers. -/
def BlockClosing.bare (tail : BlockClosing) : BlockClosing := ⟨tail.path.map Expr.unlocated, {}⟩

namespace Builder

variable {b : Builder} {decorator : Bool} {strip : Strip} {loc : Location}
  {other : Option ElseSection}

/-- What the builder asks of the parts of a block. -/
structure Fitting (head : BlockOpening) (other : Option ElseSection)
    (closing : Option BlockClosing) : Prop where
  closed : ∀ name ∈ closing.bind BlockClosing.path, head.call.head.ClosedBy name.written?
  fits : ∀ s ∈ other, s.Fits (head.opener.contains '*')

/-- A block without places, markers and chains, from its parts. -/
def bareBlock (inverted : Bool) (head : BlockOpening) (main : Program)
    (other : Option ElseSection) : Statement :=
  let first : Program := { main.bare with blockParams := head.blockParams }
  let second := Section.bare (other.map ElseSection.program)
  let node : Block :=
    { call := head.call.unlocated
      program := if inverted then second else some first
      inverse := if inverted then some first else second
      openStrip := {}
      inverseStrip := {}
      closeStrip := {}
      loc := .nowhere }
  if head.opener.contains '*' then .decoratorBlock node else .block node

variable {head : BlockOpening} {main : Program} {closing : Option BlockClosing} {inverted : Bool}
  {x : Extent}

/-- A block whose parts fit is accepted. -/
theorem exists_block (h : Fitting head other closing) :
    ∃ s, b.block head main other closing inverted x = .ok s := by
  obtain ⟨inverse, hinverse⟩ : ∃ inverse, inverseProgram (head.opener.contains '*')
      ((closing.map BlockClosing.strip).getD {}) (b.locate x) other = .ok inverse :=
    exists_inverseProgram h.fits
  unfold block
  dsimp only
  split
  · next name hname =>
      have hclose : checkClose head.call.head name.written? (some name.loc) = .ok () :=
        checkClose_eq_ok_iff.mpr (h.closed name hname)
      rw [hclose, hinverse]
      exact ⟨_, rfl⟩
  · rw [hinverse]
    exact ⟨_, rfl⟩

/-- A bare block has its sections in the order that its opening tag asks for. -/
theorem bare_of_inverse {inverse : Option Program} {node : Block} {opening middle : Strip}
    (hinverse : inverseProgram (head.opener.contains '*') strip loc other = .ok inverse)
    (hnode : node =
      { call := head.call
        program := if inverted then inverse else some { main with blockParams := head.blockParams }
        inverse := if inverted then some { main with blockParams := head.blockParams } else inverse
        openStrip := opening
        inverseStrip := middle
        closeStrip := strip
        loc := loc }) :
    (if head.opener.contains '*' then Statement.decoratorBlock node else .block node).bare =
      bareBlock inverted head main other := by
  obtain ⟨-, hbare⟩ := bare_of_inverseProgram hinverse
  subst hnode
  obtain ⟨body, names, chained, _⟩ := main
  rw [bareBlock, ← hbare]
  generalize head.opener.contains '*' = decorator
  cases inverted <;> cases decorator <;> rfl

/-- A block that is accepted has parts that fit, and is what they make without markers. -/
theorem bare_of_block {s : Statement} (h : b.block head main other closing inverted x = .ok s) :
    Fitting head other closing ∧ s.bare = bareBlock inverted head main other := by
  unfold block at h
  dsimp only at h
  split at h
  · next name hname =>
      obtain ⟨_, hclose, h⟩ := exists_of_bind_eq_ok h
      obtain ⟨inverse, hinverse, h⟩ := exists_of_bind_eq_ok h
      obtain rfl := Except.ok.inj h
      refine ⟨⟨?_, (bare_of_inverseProgram hinverse).1⟩, bare_of_inverse hinverse rfl⟩
      intro name' hname'
      obtain rfl := Option.some.inj (hname'.symm.trans hname)
      exact checkClose_eq_ok_iff.mp hclose
  · next hnone =>
      obtain ⟨inverse, hinverse, h⟩ := exists_of_bind_eq_ok h
      obtain rfl := Except.ok.inj h
      refine ⟨⟨?_, (bare_of_inverseProgram hinverse).1⟩, bare_of_inverse hinverse rfl⟩
      rw [hnone]
      nofun

variable {head' : BlockOpening} {main' : Program} {other' : Option ElseSection}
  {closing' : Option BlockClosing} {x' : Extent} {called called' : Call} {s : Statement}

/-- A bare block is made of the bare parts of its tag and its sections. -/
theorem bareBlock_congr (hcall : head'.call.unlocated = head.call.unlocated)
    (hstar : head'.opener.contains '*' = head.opener.contains '*')
    (hnames : head'.blockParams = head.blockParams) (hmain : main'.bare = main.bare)
    (hother : Section.bare (other'.map ElseSection.program) =
      Section.bare (other.map ElseSection.program)) :
    bareBlock inverted head' main' other' = bareBlock inverted head main other := by
  rw [bareBlock, bareBlock, hcall, hstar, hnames, hmain, hother]

theorem section_of_bare (h : other'.map ElseSection.bare = other.map ElseSection.bare) :
    Section.bare (other'.map ElseSection.program) =
      Section.bare (other.map ElseSection.program) := by
  rcases cases_of_map_eq h with ⟨rfl, rfl⟩ | ⟨s', s, rfl, rfl, hsame⟩
  · rfl
  · exact congrArg some (congrArg ElseSection.program hsame)

/-- Parts that are equal to those of a block up to places, markers and chains make a block that
is equal to it up to the same. -/
theorem exists_block_of_bare (h : b.block head main other closing inverted x = .ok s)
    (hhead : head'.bare = head.bare) (hmain : main'.bare = main.bare)
    (hother : other'.map ElseSection.bare = other.map ElseSection.bare)
    (hclosing : (closing'.bind BlockClosing.path).map Expr.unlocated =
      (closing.bind BlockClosing.path).map Expr.unlocated) :
    ∃ s', b.block head' main' other' closing' inverted x' = .ok s' ∧ s'.bare = s.bare := by
  obtain ⟨hopener, hcall, hnames, -⟩ := BlockOpening.mk.inj hhead
  obtain ⟨⟨hclosed, hfits⟩, hbare⟩ := bare_of_block h
  have hfitting : Fitting head' other' closing' := by
    constructor
    · rcases cases_of_map_eq hclosing with ⟨hnone, -⟩ | ⟨name', name, hname', hname, hsame⟩
      · rw [hnone]
        nofun
      · rw [hname']
        rintro _ ⟨⟩
        rw [← name'.written?_unlocated, hsame, name.written?_unlocated]
        exact (hclosed name hname).of_call hcall
    · rw [hopener]
      rcases cases_of_map_eq hother with ⟨rfl, -⟩ | ⟨t', t, rfl, rfl, hsame⟩
      · nofun
      · rintro _ ⟨⟩
        exact (hfits t rfl).of_bare hsame
  obtain ⟨s', hs'⟩ : ∃ s', b.block head' main' other' closing' inverted x' = .ok s' :=
    exists_block hfitting
  refine ⟨s', hs', ?_⟩
  rw [(bare_of_block hs').2, hbare]
  exact bareBlock_congr hcall (congrArg (List.contains · '*') hopener) hnames hmain
    (section_of_bare hother)

/-- A raw block with the same bare parts is accepted too, and is the same without places. -/
theorem exists_rawBlock_of_bare {body body' : List Statement} {name : Text}
    (h : b.rawBlock called body name x = .ok s) (hcall : called'.unlocated = called.unlocated)
    (hbody : Body.bare body' = Body.bare body) :
    ∃ s', b.rawBlock called' body' name x' = .ok s' ∧ s'.bare = s.bare := by
  obtain ⟨_, hclose, h⟩ := exists_of_bind_eq_ok h
  obtain rfl := Except.ok.inj h
  have hclosed : called'.head.ClosedBy (some name) :=
    (checkClose_eq_ok_iff.mp hclose).of_call hcall
  rw [rawBlock, checkClose_eq_ok_iff.mpr hclosed]
  refine ⟨_, rfl, ?_⟩
  simp only [Statement.bare, Block.bare, Section.bare, Program.bare, hcall, hbody]

/-- A partial block with the same bare parts is accepted too, and is the same without
places. -/
theorem exists_inclusionBlock_of_bare {tail tail' : BlockClosing}
    (h : b.inclusionBlock head main tail x = .ok s)
    (hhead : head'.bare = head.bare) (hmain : main'.bare = main.bare)
    (htail : tail'.bare = tail.bare) :
    ∃ s', b.inclusionBlock head' main' tail' x' = .ok s' ∧ s'.bare = s.bare := by
  obtain ⟨_, hclose, h⟩ := exists_of_bind_eq_ok h
  obtain rfl := Except.ok.inj h
  have hcall := congrArg BlockOpening.call hhead
  have hpath := congrArg BlockClosing.path htail
  have hwritten : tail'.path.bind Expr.written? = tail.path.bind Expr.written? := by
    rcases cases_of_map_eq hpath with ⟨hnone', hnone⟩ | ⟨name', name, hname', hname, hsame⟩
    · rw [hnone', hnone]
    · rw [hname', hname, Option.bind_some, Option.bind_some, ← name'.written?_unlocated, hsame,
        name.written?_unlocated]
  have hclosed : head'.call.head.ClosedBy (tail'.path.bind Expr.written?) := by
    rw [hwritten]
    exact (checkClose_eq_ok_iff.mp hclose).of_call hcall
  rw [inclusionBlock, checkClose_eq_ok_iff.mpr hclosed]
  refine ⟨_, rfl, ?_⟩
  simp only [Statement.bare, InclusionBlock.bare, hmain]
  rw [show head'.call.unlocated = head.call.unlocated from hcall]

end Builder

end Stache
