import Mathlib.Data.List.Basic
import Stache.Proofs.Grammar.Nodes
import Stache.Proofs.Source.Order
import Stache.Proofs.Token.Neighbours

/-!
# Places of nodes

The tokens of a template lie one behind the other (`InSequence`), and a node has
the place of its tokens, from the start of the first to the end of the last
(`place_of_writesNode`).  As the parts of a node are written side by side, their
places lie within its own and apart from each other (`nested_of_writesNode`).
-/

namespace Stache

/-! ## What tokens cover -/

theorem endOf_eq_getLast (l : Lexeme) (ls : List Lexeme) :
    endOf l.span ls = ((l :: ls).getLast (List.cons_ne_nil l ls)).span := by
  induction ls generalizing l with
  | nil => rfl
  | cons l' ls ih => exact ih l'

/-- What tokens cover starts with the first of them and ends with the last. -/
theorem covered_eq {ls : List Lexeme} (hne : ls ≠ []) :
    covered ls = ⟨(ls.head hne).span.start, (ls.getLast hne).span.stop⟩ := by
  cases ls with
  | nil => exact absurd rfl hne
  | cons l ls => rw [covered, endOf_eq_getLast, List.head_cons]

/-- The tokens lie one behind the other. -/
structure InSequence (ls : List Lexeme) : Prop where
  forwards : ∀ x ∈ ls, x.span.start ≤ x.span.stop
  ordered : ls.Pairwise fun x y => x.span.stop ≤ y.span.start

namespace InSequence

variable {ls ls' : List Lexeme}

theorem left (h : InSequence (ls ++ ls')) : InSequence ls :=
  ⟨fun x hx => h.forwards x (List.mem_append_left ls' hx), (List.pairwise_append.mp h.ordered).1⟩

theorem right (h : InSequence (ls ++ ls')) : InSequence ls' :=
  ⟨fun x hx => h.forwards x (List.mem_append_right ls hx),
    (List.pairwise_append.mp h.ordered).2.1⟩

theorem tail {l : Lexeme} (h : InSequence (l :: ls)) : InSequence ls :=
  ⟨fun x hx => h.forwards x (List.mem_cons_of_mem l hx), h.ordered.tail⟩

/-- Each token lies within what all of them cover. -/
theorem covered_of_mem (h : InSequence ls) {x : Lexeme} (hx : x ∈ ls) :
    (covered ls).start ≤ x.span.start ∧ x.span.stop ≤ (covered ls).stop := by
  have hne : ls ≠ [] := List.ne_nil_of_mem hx
  rw [covered_eq hne]
  constructor
  · obtain ⟨l, ls, rfl⟩ := List.exists_cons_of_ne_nil hne
    rcases List.mem_cons.mp hx with rfl | hx
    · exact Nat.le_refl _
    · exact Nat.le_trans (h.forwards l List.mem_cons_self) (List.rel_of_pairwise_cons h.ordered hx)
  · have hsplit := List.dropLast_concat_getLast hne
    have hordered := h.ordered
    rw [← hsplit, List.pairwise_append] at hordered
    rw [← hsplit] at hx
    rcases List.mem_append.mp hx with hx | hx
    · exact Nat.le_trans (hordered.2.2 x hx _ List.mem_cons_self)
        (h.forwards _ (List.getLast_mem hne))
    · obtain rfl := List.mem_singleton.mp hx
      exact Nat.le_refl _

/-- What some of the tokens cover lies within what all of them cover. -/
theorem covered_of_infix {before own after : List Lexeme}
    (h : InSequence (before ++ (own ++ after))) (hne : own ≠ []) :
    (covered (before ++ (own ++ after))).start ≤ (covered own).start ∧
      (covered own).stop ≤ (covered (before ++ (own ++ after))).stop := by
  have hmem {x : Lexeme} (hx : x ∈ own) : x ∈ before ++ (own ++ after) :=
    List.mem_append_right before (List.mem_append_left after hx)
  rw [covered_eq hne]
  exact ⟨(h.covered_of_mem (hmem (List.head_mem hne))).1,
    (h.covered_of_mem (hmem (List.getLast_mem hne))).2⟩

/-- What some of the tokens cover ends before what others behind them cover. -/
theorem covered_before {own before own' after : List Lexeme}
    (h : InSequence (own ++ (before ++ (own' ++ after)))) (hne : own ≠ []) (hne' : own' ≠ []) :
    (covered own).stop ≤ (covered own').start := by
  rw [covered_eq hne, covered_eq hne']
  exact (List.pairwise_append.mp h.ordered).2.2 _ (List.getLast_mem hne) _
    (List.mem_append_right before (List.mem_append_left after (List.head_mem hne')))

end InSequence

theorem Laid.inSequence {cut inside : Bool} {offset : Nat} {ls : List Lexeme} {cs : Text}
    (h : Laid cut inside offset ls cs) : InSequence ls := by
  refine ⟨fun x hx => ?_, h.ordered⟩
  obtain ⟨u, w, v, -, -, hspan, -⟩ := h.exists_slice x hx
  rw [hspan, Text.byteLength_append]
  exact Nat.add_le_add_left (Nat.le_add_right _ _) offset

/-! ## Places of nodes -/

namespace Location

/-- One place lies within another. -/
def Encloses (a b : Location) : Prop := a.source = b.source ∧ a.start ≤ b.start ∧ b.stop ≤ a.stop

/-- One place ends before another starts. -/
def Before (a b : Location) : Prop := a.stop ≤ b.start

end Location

namespace Grammar

variable {g : Grammar} {ls : List Lexeme}

/-- The place of some tokens in the source. -/
def place (g : Grammar) (ls : List Lexeme) : Location := g.builder.locate (g.extentOf ls)

theorem ne_nil_of_writesSegments {segments : List Segment} (h : WritesSegments ls segments) :
    ls ≠ [] := by
  cases h with
  | mk _ => nofun

theorem loc_of_path {b : Builder} {data : Bool} {sub? : Option SubExpr} {segments : List Segment}
    {x : Extent} {p : Path} (h : b.path data sub? segments x = .ok p) : p.loc = b.locate x := by
  unfold Builder.path at h
  dsimp only at h
  split at h
  · cases h
  · cases h
    rfl

theorem place_of_writesExpr (hg : g.Literal) {e : Expr} (h : g.WritesExpr ls e) :
    ls ≠ [] ∧ e.loc = g.place ls := by
  cases h with
  | path h hpath => exact ⟨ne_nil_of_writesSegments h, loc_of_path hpath⟩
  | data _ hpath => exact ⟨nofun, loc_of_path hpath⟩
  | subPath _ _ hpath => exact ⟨nofun, loc_of_path hpath⟩
  | hash h _ =>
      rw [hashLiteral_of_literal hg]
      exact ⟨nofun, rfl⟩
  | array h =>
      rw [array_of_literal hg]
      exact ⟨nofun, rfl⟩
  | sub | string | number | boolean | undefined | null => exact ⟨nofun, rfl⟩

theorem ne_nil_of_writesOpening {kind : Opener} {head : BlockOpening}
    (h : g.WritesOpening kind ls head) : ls ≠ [] := by
  cases h with
  | mk _ _ _ => nofun

theorem loc_of_block {head : BlockOpening} {program : Program} {other : Option ElseSection}
    {closing : Option BlockClosing} {inverted : Bool} {x : Extent} {s : Statement}
    (h : g.builder.block head program other closing inverted x = .ok s) :
    s.loc = g.builder.locate x := by
  obtain ⟨decorator, inverse, node, -, hs, rfl⟩ := Builder.exists_of_block h
  rcases hs with rfl | rfl <;> rfl

theorem place_of_writesStatement {s : Statement} (h : g.WritesStatement ls s) :
    ls ≠ [] ∧ s.loc = g.place ls := by
  cases h with
  | content | comment | inclusion => exact ⟨nofun, rfl⟩
  | plain h | unescaped h =>
      obtain ⟨escaped, hs | hs⟩ := g.builder.exists_of_mustache _ _ _ _ <;> rw [hs] <;>
        exact ⟨nofun, rfl⟩
  | rawBlock hcall hbody hblock =>
      obtain rfl := Builder.eq_of_rawBlock hblock
      exact ⟨nofun, rfl⟩
  | block hhead hbody hother htail hblock =>
      exact ⟨List.append_ne_nil_of_left_ne_nil (ne_nil_of_writesOpening hhead) _,
        loc_of_block hblock⟩
  | inclusionBlock hhead hbody htail hblock =>
      obtain rfl := Builder.eq_of_inclusionBlock hblock
      exact ⟨List.append_ne_nil_of_left_ne_nil (ne_nil_of_writesOpening hhead) _, rfl⟩

/-- A node that is no program has tokens, and its place is theirs. -/
theorem place_of_writesNode (hg : g.Literal) {n : Node} (h : g.WritesNode ls n)
    (hn : n.program? = none) : ls ≠ [] ∧ n.loc? = some (g.place ls) := by
  cases h with
  | expr h => exact (place_of_writesExpr hg h).imp_right (congrArg some)
  | hash h hne =>
      refine ⟨?_, rfl⟩
      cases h with
      | nil => exact absurd rfl hne
      | cons _ _ => nofun
  | hashPair h => exact ⟨nofun, rfl⟩
  | statement h => exact (place_of_writesStatement h).imp_right (congrArg some)
  | link h =>
      cases h with
      | @mk _ _ _ _ _ _ node _ hhead _ _ hblock _ =>
          have hloc : (Statement.block node).loc = _ := loc_of_block hblock
          exact ⟨List.append_ne_nil_of_left_ne_nil (ne_nil_of_writesOpening hhead) _,
            congrArg some hloc⟩
  | program | contents | chained => cases hn

end Grammar

/-! ## Nested nodes -/

namespace Node

/-- The place of one node lies within that of another. -/
def Encloses (a b : Node) : Prop :=
  ∃ x y, a.loc? = some x ∧ b.loc? = some y ∧ x.Encloses y

/-- The place of one node ends before that of another starts. -/
def Before (a b : Node) : Prop := ∃ x y, a.loc? = some x ∧ b.loc? = some y ∧ x.Before y

/-- The places of two nodes have nothing in common. -/
def Apart (a b : Node) : Prop := a.Before b ∨ b.Before a

/-- The places inside a node lie within its own and apart, and those in its tag are in order. -/
structure Nested (n : Node) : Prop where
  encloses : ∀ m ∈ n.inside, n.Encloses m
  apart : n.inside.Pairwise Apart
  ordered : n.ordered.Pairwise Before

/-- A node, or the statements of a program. -/
def opened : Node → List Node
  | .program p => p.nodes
  | n => [n]

theorem opened_of_program? {n : Node} (h : n.program? = none) : n.opened = [n] := by
  cases n with
  | program => cases h
  | statement | expr | hash | hashPair => rfl

theorem program?_of_mem_map {α : Type} {wrap : α → Node} (hwrap : ∀ a, (wrap a).program? = none)
    {members : List α} {m : Node} (h : m ∈ members.map wrap) : m.program? = none := by
  obtain ⟨a, -, rfl⟩ := List.mem_map.mp h
  exact hwrap a

theorem program?_of_mem_call {c : Call} {m : Node} (h : m ∈ c.nodes) : m.program? = none := by
  rcases List.mem_cons.mp h with rfl | h
  · rfl
  · rcases List.mem_append.mp h with h | h
    · exact program?_of_mem_map (fun _ => rfl) h
    · exact program?_of_mem_map (fun _ => rfl) h

theorem program?_of_mem_headNodes {p : Path} {m : Node} (h : m ∈ p.headNodes) :
    m.program? = none := by
  unfold Path.headNodes at h
  split at h
  · rw [List.mem_singleton.mp h]
    rfl
  · cases h

theorem program?_of_mem_ordered {n m : Node} (h : m ∈ n.ordered) : m.program? = none := by
  cases n with
  | program => exact program?_of_mem_map (fun _ => rfl) h
  | statement s =>
      cases s with
      | content | comment => cases h
      | mustache | decorator | block | decoratorBlock | inclusion | inclusionBlock =>
          exact program?_of_mem_call h
  | expr e =>
      cases e with
      | path => exact program?_of_mem_headNodes h
      | sub => exact program?_of_mem_call h
      | array | hash => exact program?_of_mem_map (fun _ => rfl) h
      | string | number | boolean | undefined | null => cases h
  | hash => exact program?_of_mem_map (fun _ => rfl) h
  | hashPair =>
      rw [List.mem_singleton.mp h]
      rfl

/-- The parts of a node open to the nodes inside it, whatever the order of its sections. -/
theorem flatMap_opened (n : Node) (sections : List Program) :
    (n.ordered ++ sections.map Node.program).flatMap opened =
      n.ordered ++ sections.flatMap Program.nodes := by
  rw [List.flatMap_append, List.flatMap_map,
    List.flatMap_congr fun m hm => opened_of_program? (program?_of_mem_ordered hm),
    List.flatMap_singleton']
  rfl

end Node

namespace Grammar

variable {g : Grammar} {ls : List Lexeme} {ns : List Node} {n : Node}

/-- The tokens of a node write what it opens to. -/
theorem row_opened (hg : g.Literal) (h : g.WritesNode ls n) : g.WritesRow ls n.opened := by
  cases n with
  | program p =>
      obtain ⟨sections, hsections, hrow⟩ := parts_of_writesNode hg h
      obtain rfl := List.perm_nil.mp hsections
      rw [List.map_nil, List.append_nil] at hrow
      exact hrow
  | statement | expr | hash | hashPair => exact .one h

theorem WritesRow.opened (hg : g.Literal) (h : g.WritesRow ls ns) :
    g.WritesRow ls (ns.flatMap Node.opened) := by
  induction h with
  | done => exact .done
  | skip _ ih => exact ih.skip
  | node hn _ ih => exact (row_opened hg hn).append ih

/-- The nodes of a row lie one behind the other. -/
theorem WritesRow.pairwise (hg : g.Literal) (h : g.WritesRow ls ns)
    (hns : ∀ n ∈ ns, n.program? = none) (hls : InSequence ls) : ns.Pairwise Node.Before := by
  induction h with
  | done => exact .nil
  | skip _ ih => exact ih hns hls.tail
  | @node own rest n ns hn hrow ih =>
      obtain ⟨hn', hns⟩ := List.forall_mem_cons.mp hns
      refine .cons (fun m hm => ?_) (ih hns hls.right)
      obtain ⟨before, own', after, rfl, hm'⟩ := hrow.exists_of_mem hm
      obtain ⟨hne, hloc⟩ := place_of_writesNode hg hn hn'
      obtain ⟨hne', hloc'⟩ := place_of_writesNode hg hm' (hns m hm)
      exact ⟨_, _, hloc, hloc', Source.position_le_position _ (hls.covered_before hne hne')⟩

/-- The nodes of a row lie within the place of its tokens. -/
theorem WritesRow.encloses (hg : g.Literal) (h : g.WritesRow ls ns)
    (hns : ∀ n ∈ ns, n.program? = none) (hls : InSequence ls) :
    ∀ n ∈ ns, ∃ x, n.loc? = some x ∧ (g.place ls).Encloses x := by
  intro n hn
  obtain ⟨before, own, after, rfl, hown⟩ := h.exists_of_mem hn
  obtain ⟨hne, hloc⟩ := place_of_writesNode hg hown (hns n hn)
  obtain ⟨hstart, hstop⟩ := hls.covered_of_infix hne
  exact ⟨_, hloc, rfl, Source.position_le_position _ hstart, Source.position_le_position _ hstop⟩

theorem nested_of_writesNode (hg : g.Literal) (h : g.WritesNode ls n) (hn : n.program? = none)
    (hls : InSequence ls) : n.Nested := by
  obtain ⟨-, hloc⟩ := place_of_writesNode hg h hn
  obtain ⟨sections, hsections, hrow⟩ := parts_of_writesNode hg h
  have hopened := hrow.opened hg
  rw [Node.flatMap_opened] at hopened
  have hperm : (n.ordered ++ sections.flatMap Program.nodes).Perm n.inside :=
    (hsections.flatMap_right _).append_left _
  have hprogram : ∀ m ∈ n.ordered ++ sections.flatMap Program.nodes,
      m.program? = none := by
    intro m hm
    rcases List.mem_append.mp hm with hm | hm
    · exact Node.program?_of_mem_ordered hm
    · obtain ⟨p, -, hm⟩ := List.mem_flatMap.mp hm
      exact Node.program?_of_mem_map (fun _ => rfl) hm
  have hbefore := hopened.pairwise hg hprogram hls
  refine ⟨fun m hm => ?_, ?_, (List.pairwise_append.mp hbefore).1⟩
  · obtain ⟨x, hx, hencloses⟩ := hopened.encloses hg hprogram hls m (hperm.mem_iff.mpr hm)
    exact ⟨_, x, hloc, hx, hencloses⟩
  · exact hperm.pairwise (hbefore.imp .inl) Or.symm

end Grammar

end Stache
