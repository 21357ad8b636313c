import Mathlib.Data.List.Basic
import Stache.Proofs.Traversal.Trace
import Stache.Traversal.Visits

/-!
# The order of visits

A way leads to a node from the root, one slot number after another.  Ways in
order, with `[]` first and `way` before `way ++ rest`, are pre-order.

Both traversals visit the nodes in this order, each way once, and what they find
at its end is the node there inside of the nodes on the way to it.
-/

namespace Stache

/-! ## Ways -/

/-- The way to a node from the root, as the numbers of the slots on it. -/
abbrev Way := List Nat

/-- The node at the end of a way, and the nodes around it.  No way leads on from a node of a
kind that is not entered. -/
def Node.visitAt? (enters : Kind → Bool) : List Frame → Node → Way → Option Visit
  | parents, n, [] => some ⟨n, parents⟩
  | parents, n, i :: rest =>
      if enters n.kind then
        n.slots[i]?.bind fun slot => slot.node.visitAt? enters (n.frame :: parents) rest
      else none
termination_by structural _ _ way => way

/-- The node at the end of a way that begins with one of some slots. -/
def visitBelow? (enters : Kind → Bool) (around : List Frame) (slots : List Slot) :
    Way → Option Visit
  | [] => none
  | i :: rest => slots[i]?.bind fun slot => slot.node.visitAt? enters around rest

/-- The visits go through the ways in order, each one once. -/
def InOrder (visitAt? : Way → Option Visit) (visits : List Visit) : Prop :=
  ∃ ways : List Way,
    ways.Pairwise (· < ·) ∧
    (∀ way, way ∈ ways ↔ (visitAt? way).isSome) ∧
    visits.map some = ways.map visitAt?

/-! ## The visits of a node -/

section

variable (enters : Kind → Bool)

/-- A node, and then the nodes in its slots if its kind is entered. -/
def Node.visits (parents : List Frame) (n : Node) : List Visit :=
  ⟨n, parents⟩ ::
    if enters n.kind then
      n.slots.attach.flatMap fun slot => slot.1.node.visits (n.frame :: parents)
    else []
termination_by sizeOf n
decreasing_by exact Node.sizeOf_lt_of_mem_slots slot.2

theorem Node.visits_eq (parents : List Frame) (n : Node) :
    n.visits enters parents =
      ⟨n, parents⟩ ::
        if enters n.kind then
          n.slots.flatMap fun slot => slot.node.visits enters (n.frame :: parents)
        else [] := by
  rw [visits, flatMap_attach n.slots fun slot => slot.node.visits enters (n.frame :: parents)]

end

/-! ## Visits in order -/

section

variable {enters : Kind → Bool} {around : List Frame}

/-- The way to the same node when one more slot stands in front. -/
def Way.later : Way → Way
  | [] => []
  | i :: rest => (i + 1) :: rest

theorem Way.later_lt_later {a b : Way} (h : a < b) : a.later < b.later := by
  cases a with
  | nil =>
      cases b with
      | nil => exact absurd h (List.lt_irrefl [])
      | cons j rest => exact List.nil_lt_cons _ _
  | cons i first =>
      cases b with
      | nil => exact absurd h (List.not_lt_nil _)
      | cons j rest =>
          rw [later, later, List.cons_lt_cons_iff]
          rcases List.cons_lt_cons_iff.mp h with hij | ⟨rfl, hrest⟩
          · exact .inl (Nat.succ_lt_succ hij)
          · exact .inr ⟨rfl, hrest⟩

/-- A way behind the first slot, as it is without that slot. -/
theorem visitBelow?_later {slot : Slot} {rest : List Slot} (way : Way) :
    visitBelow? enters around (slot :: rest) way.later =
      visitBelow? enters around rest way := by
  cases way <;> rfl

theorem InOrder.nil : InOrder (visitBelow? enters around []) [] :=
  ⟨[], .nil, fun way => by cases way <;> simp [visitBelow?], rfl⟩

/-- The visits of the first slot go before those of the others. -/
theorem InOrder.cons {slot : Slot} {rest : List Slot} {first others : List Visit}
    (hfirst : InOrder (slot.node.visitAt? enters around) first)
    (hothers : InOrder (visitBelow? enters around rest) others) :
    InOrder (visitBelow? enters around (slot :: rest)) (first ++ others) := by
  obtain ⟨front, hfrontOrder, hfront, hfrontVisits⟩ := hfirst
  obtain ⟨back, hbackOrder, hback, hbackVisits⟩ := hothers
  have hbackCons : ∀ way ∈ back, ∃ i inner, way = i :: inner := by
    rintro (_ | ⟨i, inner⟩) h
    · cases (hback _).mp h
    · exact ⟨i, inner, rfl⟩
  refine ⟨front.map (0 :: ·) ++ back.map Way.later, ?_, ?_, ?_⟩
  · rw [List.pairwise_append, List.pairwise_map, List.pairwise_map]
    refine ⟨hfrontOrder.imp fun h => List.cons_lt_cons_iff.mpr (.inr ⟨rfl, h⟩),
      hbackOrder.imp Way.later_lt_later, ?_⟩
    intro a ha b hb
    obtain ⟨a, -, rfl⟩ := List.mem_map.mp ha
    obtain ⟨b, hbBack, rfl⟩ := List.mem_map.mp hb
    obtain ⟨i, inner, rfl⟩ := hbackCons b hbBack
    exact List.cons_lt_cons_iff.mpr (.inl i.succ_pos)
  · intro way
    rw [List.mem_append, List.mem_map, List.mem_map]
    constructor
    · rintro (⟨a, ha, rfl⟩ | ⟨b, hb, rfl⟩)
      · exact (hfront a).mp ha
      · exact visitBelow?_later b ▸ (hback b).mp hb
    · intro h
      match way with
      | [] => cases h
      | 0 :: inner => exact .inl ⟨inner, (hfront inner).mpr h, rfl⟩
      | (i + 1) :: inner => exact .inr ⟨i :: inner, (hback (i :: inner)).mpr h, rfl⟩
  · rw [List.map_append, List.map_append, hfrontVisits, hbackVisits, List.map_map, List.map_map]
    exact congrArg (_ ++ ·) (List.map_congr_left fun b _ => (visitBelow?_later b).symm)

/-- The visits of some slots are in order if those of each are. -/
theorem InOrder.slots {slots : List Slot}
    (h : ∀ slot ∈ slots,
      InOrder (slot.node.visitAt? enters around) (slot.node.visits enters around)) :
    InOrder (visitBelow? enters around slots)
      (slots.flatMap fun slot => slot.node.visits enters around) := by
  induction slots with
  | nil => exact .nil
  | cons slot rest ih =>
      obtain ⟨hslot, hrest⟩ := List.forall_mem_cons.mp h
      exact .cons hslot (ih hrest)

/-- The visits of a node are in order. -/
theorem Node.inOrder_visits (enters : Kind → Bool) (parents : List Frame) (n : Node) :
    InOrder (n.visitAt? enters parents) (n.visits enters parents) := by
  have hslots : InOrder (visitBelow? enters (n.frame :: parents) n.slots)
      (n.slots.flatMap fun slot => slot.node.visits enters (n.frame :: parents)) :=
    .slots fun slot _ => slot.node.inOrder_visits enters (n.frame :: parents)
  obtain ⟨ways, horder, hways, hvisits⟩ := hslots
  rw [visits_eq]
  cases henters : enters n.kind with
  | false =>
      refine ⟨[[]], List.pairwise_singleton _ _, fun way => ?_, rfl⟩
      cases way <;> simp [visitAt?, henters]
  | true =>
      have hbelow : ∀ way ∈ ways,
          n.visitAt? enters parents way =
            visitBelow? enters (n.frame :: parents) n.slots way := by
        rintro (_ | ⟨i, inner⟩) h
        · cases (hways _).mp h
        · rw [visitAt?, henters]
          rfl
      refine ⟨[] :: ways, ?_, ?_, ?_⟩
      · refine List.pairwise_cons.mpr ⟨?_, horder⟩
        rintro (_ | ⟨i, inner⟩) h
        · cases (hways _).mp h
        · exact List.nil_lt_cons _ _
      · rintro (_ | ⟨i, inner⟩)
        · simp [visitAt?]
        · rw [List.mem_cons, hways, visitAt?, henters]
          simp [visitBelow?]
      · rw [if_pos rfl, List.map_cons, List.map_cons, hvisits]
        exact congrArg (_ :: ·) (List.map_congr_left fun way h => (hbelow way h).symm)
termination_by sizeOf n
decreasing_by exact Node.sizeOf_lt_of_mem_slots ‹_›

end

/-! ## Reading -/

/-- From a stack, a piece of reading makes some visits and leaves the stack as it was. -/
def Walk.Makes (w : Walk Unit) (stack : List Frame) (visits : List Visit) : Prop :=
  w stack = ⟨(), visits, stack⟩

namespace Walk.Makes

variable {w next : Walk Unit} {stack : List Frame} {first second : List Visit}

theorem pure : Walk.Makes (Pure.pure ()) stack [] := rfl

theorem bind (hw : Walk.Makes w stack first) (hnext : Walk.Makes next stack second) :
    Walk.Makes (w >>= fun _ => next) stack (first ++ second) := by
  rw [Walk.Makes, Walk.bind_apply, show w stack = _ from hw, show next stack = _ from hnext]

/-- A node is met before its children, which are read if its kind is entered. -/
theorem enter {enters : Kind → Bool} {n : Node}
    (h : Walk.Makes w (n.frame :: stack)
      (n.slots.flatMap fun slot => slot.node.visits enters (n.frame :: stack))) :
    Walk.Makes (Visits.enter enters n w) stack (n.visits enters stack) := by
  rw [Walk.Makes, Visits.enter, Walk.visit_apply, Node.visits_eq]
  cases enters n.kind with
  | false => rfl
  | true =>
      rw [if_pos rfl, if_pos rfl, show w _ = _ from h]
      rfl

end Walk.Makes

/-- The reading of a node. -/
def Node.walk (enters : Kind → Bool) : Node → Walk Unit
  | .program p => Visits.program enters p
  | .statement s => Visits.statement enters s
  | .expr e => Visits.expr enters e
  | .hash h => Visits.hash enters h
  | .hashPair p => Visits.hashPair enters p

section

variable {enters : Kind → Bool} {stack : List Frame}

/-- The reading of what fills a slot visits its node and what is below. -/
def Slot.IsRead (enters : Kind → Bool) (slot : Slot) : Prop :=
  ∀ stack, Walk.Makes (slot.node.walk enters) stack (slot.node.visits enters stack)

theorem makes_list {α : Type} {slotOf : α → Slot} {all : List α → Walk Unit}
    (hnil : all [] = pure ())
    (hcons : ∀ a rest, all (a :: rest) = do
      (slotOf a).node.walk enters
      all rest)
    (members : List α) (h : ∀ slot ∈ members.map slotOf, slot.IsRead enters) :
    Walk.Makes (all members) stack
      ((members.map slotOf).flatMap fun slot => slot.node.visits enters stack) := by
  induction members with
  | nil => exact hnil ▸ .pure
  | cons a rest ih =>
      obtain ⟨hfirst, hrest⟩ := List.forall_mem_cons.mp h
      rw [hcons]
      exact (hfirst stack).bind (ih hrest)

theorem makes_option {α : Type} {slotOf : α → Slot} {all : Option α → Walk Unit}
    (hnone : all none = pure ()) (hsome : ∀ a, all (some a) = (slotOf a).node.walk enters)
    (o : Option α) (h : ∀ slot ∈ o.toList.map slotOf, slot.IsRead enters) :
    Walk.Makes (all o) stack
      ((o.toList.map slotOf).flatMap fun slot => slot.node.visits enters stack) := by
  cases o with
  | none => exact hnone ▸ .pure
  | some a =>
      rw [hsome]
      simpa using h (slotOf a) List.mem_cons_self stack

theorem makes_exprs {field : String} {es : List Expr}
    (h : ∀ slot ∈ es.map (Slot.mk field false <| .expr ·), Slot.IsRead enters slot) :
    Walk.Makes (Visits.exprs enters es) stack
      ((es.map (Slot.mk field false <| .expr ·)).flatMap fun slot => slot.node.visits enters stack) :=
  makes_list (by rw [Visits.exprs]) (fun e rest => by rw [Visits.exprs]; rfl) es h

theorem makes_hashPairs {pairs : List HashPair}
    (h : ∀ slot ∈ pairs.map (Slot.mk "pairs" false <| .hashPair ·), Slot.IsRead enters slot) :
    Walk.Makes (Visits.hashPairs enters pairs) stack
      ((pairs.map (Slot.mk "pairs" false <| .hashPair ·)).flatMap
        fun slot => slot.node.visits enters stack) :=
  makes_list (by rw [Visits.hashPairs]) (fun p rest => by rw [Visits.hashPairs]; rfl) pairs h

theorem makes_statements {body : List Statement}
    (h : ∀ slot ∈ body.map (Slot.mk "body" false <| .statement ·), Slot.IsRead enters slot) :
    Walk.Makes (Visits.statements enters body) stack
      ((body.map (Slot.mk "body" false <| .statement ·)).flatMap
        fun slot => slot.node.visits enters stack) :=
  makes_list (by rw [Visits.statements]) (fun s rest => by rw [Visits.statements]; rfl) body h

theorem makes_hash? {h : Option Hash}
    (hslots : ∀ slot ∈ h.toList.map (Slot.mk "hash" false <| .hash ·), Slot.IsRead enters slot) :
    Walk.Makes (Visits.hash? enters h) stack
      ((h.toList.map (Slot.mk "hash" false <| .hash ·)).flatMap
        fun slot => slot.node.visits enters stack) :=
  makes_option (by rw [Visits.hash?]) (fun a => by rw [Visits.hash?]; rfl) h hslots

theorem makes_program? {field : String} {p : Option Program}
    (h : ∀ slot ∈ p.toList.map (Slot.mk field false <| .program ·), Slot.IsRead enters slot) :
    Walk.Makes (Visits.program? enters p) stack
      ((p.toList.map (Slot.mk field false <| .program ·)).flatMap
        fun slot => slot.node.visits enters stack) :=
  makes_option (by rw [Visits.program?]) (fun a => by rw [Visits.program?]; rfl) p h

theorem makes_call {field : String} {c : Call}
    (h : ∀ slot ∈ c.slots field, slot.IsRead enters) :
    Walk.Makes (Visits.call enters c) stack
      ((c.slots field).flatMap fun slot => slot.node.visits enters stack) := by
  obtain ⟨head, params, hash⟩ := c
  obtain ⟨hhead, hrest⟩ := List.forall_mem_cons.mp h
  obtain ⟨hparams, hhash⟩ := List.forall_mem_append.mp hrest
  rw [Visits.call, Call.slots, List.flatMap_cons, List.flatMap_append]
  exact (hhead stack).bind ((makes_exprs hparams).bind (makes_hash? hhash))

theorem makes_block {b : Block} (h : ∀ slot ∈ b.slots, slot.IsRead enters) :
    Walk.Makes (Visits.block enters b) stack
      (b.slots.flatMap fun slot => slot.node.visits enters stack) := by
  obtain ⟨call, program, inverse, openStrip, inverseStrip, closeStrip, loc⟩ := b
  obtain ⟨hcall, hrest⟩ := List.forall_mem_append.mp h
  obtain ⟨hprogram, hinverse⟩ := List.forall_mem_append.mp hrest
  rw [Visits.block, Block.slots, List.flatMap_append, List.flatMap_append]
  exact (makes_call hcall).bind ((makes_program? hprogram).bind (makes_program? hinverse))

theorem makes_inclusionBlock {b : InclusionBlock}
    (h : ∀ slot ∈ (Statement.inclusionBlock b).slots, slot.IsRead enters) :
    Walk.Makes (Visits.inclusionBlock enters b) stack
      ((Statement.inclusionBlock b).slots.flatMap fun slot => slot.node.visits enters stack) := by
  obtain ⟨call, program, openStrip, closeStrip, loc⟩ := b
  obtain ⟨hcall, hprogram⟩ := List.forall_mem_append.mp h
  rw [Visits.inclusionBlock, Statement.slots, List.flatMap_append, List.flatMap_singleton]
  exact (makes_call hcall).bind (hprogram _ List.mem_cons_self stack)

theorem Expr.makes_visits_of_slots {e : Expr} (h : ∀ slot ∈ e.slots, slot.IsRead enters) :
    Walk.Makes (Visits.expr enters e) stack ((Node.expr e).visits enters stack) := by
  cases e with
  | sub node =>
      obtain ⟨call, written, loc⟩ := node
      rw [Visits.expr, Visits.subExpr]
      exact .enter (makes_call h)
  | array items loc =>
      rw [Visits.expr]
      exact .enter (makes_exprs h)
  | hash pairs loc =>
      rw [Visits.expr]
      exact .enter (makes_hashPairs h)
  | path | string | number | boolean | undefined | null =>
      rw [Visits.expr]
      exact .enter .pure

theorem Statement.makes_visits_of_slots {s : Statement}
    (h : ∀ slot ∈ s.slots, slot.IsRead enters) :
    Walk.Makes (Visits.statement enters s) stack ((Node.statement s).visits enters stack) := by
  cases s with
  | mustache | decorator | inclusion =>
      rw [Visits.statement]
      exact .enter (makes_call h)
  | block | decoratorBlock =>
      rw [Visits.statement]
      exact .enter (makes_block h)
  | inclusionBlock =>
      rw [Visits.statement]
      exact .enter (makes_inclusionBlock h)
  | content | comment =>
      rw [Visits.statement]
      exact .enter .pure

/-- The reading of a node visits the nodes in pre-order if that of what fills its slots does. -/
theorem Node.makes_visits_of_slots {n : Node} (h : ∀ slot ∈ n.slots, slot.IsRead enters) :
    Walk.Makes (n.walk enters) stack (n.visits enters stack) := by
  cases n with
  | program p =>
      obtain ⟨body, blockParams, chained, loc⟩ := p
      rw [walk, Visits.program]
      exact .enter (makes_statements h)
  | statement s => exact Statement.makes_visits_of_slots h
  | expr e => exact Expr.makes_visits_of_slots h
  | hash hash =>
      obtain ⟨pairs, loc⟩ := hash
      rw [walk, Visits.hash]
      exact .enter (makes_hashPairs h)
  | hashPair p =>
      obtain ⟨key, value, loc⟩ := p
      rw [walk, Visits.hashPair]
      refine .enter ?_
      rw [slots, List.flatMap_singleton]
      exact h _ List.mem_cons_self _

/-- The reading of a node visits the nodes below in pre-order. -/
theorem Node.makes_visits (n : Node) (stack : List Frame) :
    Walk.Makes (n.walk enters) stack (n.visits enters stack) :=
  makes_visits_of_slots fun slot _ => slot.node.makes_visits
termination_by sizeOf n
decreasing_by exact Node.sizeOf_lt_of_mem_slots ‹_›

end

/-! ## Editing -/

/-- An edit that keeps every node meets the nodes that reading visits. -/
theorem Node.trace_keeping (enters : Kind → Bool) (text : Visit → Option Text)
    (parents : List Frame) (n : Node) :
    n.trace (fun v => ⟨text v, enters v.node.kind, .keep⟩) parents =
      (n.visits enters parents).map .ok := by
  have hslots : ∀ slot ∈ n.slots,
      slot.trace (fun v => ⟨text v, enters v.node.kind, .keep⟩) (n.frame :: parents) =
        (slot.node.visits enters (n.frame :: parents)).map .ok := by
    intro slot _
    rw [Slot.trace, slot.node.trace_keeping]
    exact List.append_nil _
  rw [trace_eq, visits_eq, List.flatMap_congr hslots]
  cases enters n.kind with
  | false => rfl
  | true => simp [List.map_flatMap]
termination_by sizeOf n
decreasing_by exact Node.sizeOf_lt_of_mem_slots ‹_›

theorem Trace.error?_visits (visits : List Visit) : Trace.error? (visits.map .ok) = none := by
  induction visits with
  | nil => rfl
  | cons v rest ih => exact ih

theorem Trace.met_visits (visits : List Visit) : Trace.met (visits.map .ok) = visits := by
  induction visits with
  | nil => rfl
  | cons v rest ih => exact congrArg (v :: ·) ih

/-- Reading visits the node at the end of each way once, in the order of the ways and inside of
the nodes on the way to it.  An edit that keeps every node makes the same visits.  The stack is
as before after each reading and each edit, wherever it begins and however it ends. -/
theorem Program.walk_inOrder (enters : Kind → Bool) (p : Program) :
    InOrder ((Node.program p).visitAt? enters []) (p.walk enters).visits ∧
    (∀ text : Visit → Option Text,
      let edit := p.edit fun v => ⟨text v, enters v.node.kind, .keep⟩
      edit.visits = (p.walk enters).visits ∧ edit.value.toBool) ∧
    (p.walk enters).stack = [] ∧ (∀ rule, (p.edit rule).stack = []) ∧
    (∀ (n : Node) (stack : List Frame), (n.walk enters stack).stack = stack) ∧
    ∀ (rule : Rule) (n : Node) (stack : List Frame), ((n.edit rule).run stack).stack = stack := by
  have hwalk : p.walk enters = ⟨(), (Node.program p).visits enters [], []⟩ :=
    (Node.program p).makes_visits []
  refine ⟨?_, fun text => ?_, ?_, fun rule => ?_, fun n stack => ?_, fun rule n stack => ?_⟩
  · rw [hwalk]
    exact (Node.program p).inOrder_visits enters []
  · have hedit := performs_root (fun v => ⟨text v, enters v.node.kind, .keep⟩) p []
    rw [Performs, Slot.trace, Node.trace_keeping, Trace.result] at hedit
    simp only [Slot.broken?, Option.map_none, Option.toList_none, List.append_nil,
      Trace.error?_visits, Trace.met_visits] at hedit
    rw [hwalk]
    exact ⟨congrArg Walked.visits hedit, congrArg (fun w => w.value.toBool) hedit⟩
  · rw [hwalk]
  · exact congrArg Walked.stack (performs_root rule p [])
  · exact congrArg Walked.stack (n.makes_visits stack)
  · exact congrArg Walked.stack (n.performs_edit rule stack)

end Stache
