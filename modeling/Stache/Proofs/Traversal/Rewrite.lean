import Mathlib.Data.List.Basic
import Stache.Proofs.Traversal.Trace

/-!
# Edits that keep, remove or replace

An edit by actions goes below the nodes that it keeps and no others.  Such an
edit has a plain account: list the slots that it comes to, in the order in which
their nodes are met, and look for the first that the action on its node breaks.

* If there is one, the edit ends there with the error of that slot.
* If there is none, the edit leads to what remains of the tree.
-/

namespace Stache

/-- A slot that an edit comes to. -/
structure Arrival where
  slot : Slot
  /-- The nodes around the slot, nearest first. -/
  parents : List Frame

namespace Arrival

/-- The visit of the node in the slot. -/
def visit (r : Arrival) : Visit := ⟨r.slot.node, r.parents⟩

/-- How the action on its node breaks the slot, if it does. -/
def broken? (act : Visit → Action) (r : Arrival) : Option EditError :=
  r.slot.broken? r.parents (act r.visit)

/-- What happens there: the node is met, and then the slot may break. -/
def events (act : Visit → Action) (r : Arrival) : Trace :=
  .ok r.visit :: ((r.broken? act).map Except.error).toList

end Arrival

/-- A node is kept. -/
def Action.isKeep : Action → Bool
  | .keep => true
  | .remove | .replace _ => false

/-- The slots that an edit comes to from a slot on, itself first, and then those of its node if
the node is kept. -/
def Slot.arrivals (act : Visit → Action) (parents : List Frame) (slot : Slot) : List Arrival :=
  ⟨slot, parents⟩ ::
    if (act ⟨slot.node, parents⟩).isKeep then
      slot.node.slots.attach.flatMap fun inner =>
        inner.1.arrivals act (slot.node.frame :: parents)
    else []
termination_by sizeOf slot.node
decreasing_by exact Node.sizeOf_lt_of_mem_slots inner.2

theorem Slot.arrivals_eq (act : Visit → Action) (parents : List Frame) (slot : Slot) :
    slot.arrivals act parents =
      ⟨slot, parents⟩ ::
        if (act ⟨slot.node, parents⟩).isKeep then
          slot.node.slots.flatMap (Slot.arrivals act (slot.node.frame :: parents))
        else [] := by
  rw [arrivals, flatMap_attach slot.node.slots (Slot.arrivals act (slot.node.frame :: parents))]

/-! ## The trace of an edit by actions -/

section

variable (act : Visit → Action)

/-- Only a node that is kept has something happen below it, and only one that is not kept
breaks its slot. -/
theorem Slot.trace_ofAction (parents : List Frame) (slot : Slot) :
    slot.trace (fun v => .ofAction (act v)) parents =
      (slot.arrivals act parents).flatMap (Arrival.events act) := by
  have hbelow : slot.node.slots.flatMap
        (Slot.trace (fun v => .ofAction (act v)) (slot.node.frame :: parents)) =
      (slot.node.slots.flatMap (Slot.arrivals act (slot.node.frame :: parents))).flatMap
        (Arrival.events act) := by
    rw [List.flatMap_assoc]
    exact List.flatMap_congr fun inner _ => inner.trace_ofAction (slot.node.frame :: parents)
  rw [Slot.trace, Node.trace_eq, hbelow, arrivals_eq, List.flatMap_cons, Arrival.events,
    Arrival.broken?, Arrival.visit]
  cases act ⟨slot.node, parents⟩ with
  | keep => simp [Decision.ofAction, Action.isKeep, Slot.broken?]
  | remove | replace => simp [Decision.ofAction, Action.isKeep]
termination_by sizeOf slot.node
decreasing_by exact Node.sizeOf_lt_of_mem_slots ‹_›

/-- A trace breaks off at the first slot that is broken. -/
theorem Trace.error?_events (arrivals : List Arrival) :
    Trace.error? (arrivals.flatMap (Arrival.events act)) =
      arrivals.findSome? (Arrival.broken? act) := by
  induction arrivals with
  | nil => rfl
  | cons r rest ih =>
      rw [List.flatMap_cons, error?_append, ih, List.findSome?_cons, Arrival.events]
      cases r.broken? act <;> rfl

/-- The nodes are met up to the first slot that is broken, that of the slot included. -/
theorem Trace.met_events (arrivals : List Arrival) :
    Trace.met (arrivals.flatMap (Arrival.events act)) =
      (arrivals.take (arrivals.findIdx (fun r => (r.broken? act).isSome) + 1)).map
        Arrival.visit := by
  induction arrivals with
  | nil => rfl
  | cons r rest ih =>
      rw [List.flatMap_cons, met_append, ih, List.findIdx_cons, Arrival.events]
      cases r.broken? act <;> rfl

end

/-! ## An edit that keeps everything -/

section

variable {rule : Rule} {around : List Frame}

section

variable {α : Type} {pick : Node → Option α} {wrap : α → Node}

theorem filterMap_remains (hfamily : IsFamily pick wrap) {members : List α}
    (h : ∀ a ∈ members, (wrap a).remains rule around = some (wrap a)) :
    (members.filterMap fun a => ((wrap a).remains rule around).bind pick) = members := by
  have hpick : ∀ a ∈ members, ((wrap a).remains rule around).bind pick = some a := fun a ha => by
    rw [h a ha, Option.bind_some, hfamily.pick_wrap]
  rw [List.filterMap_congr hpick, List.filterMap_some]

theorem bind_remains (hfamily : IsFamily pick wrap) {o : Option α}
    (h : ∀ a, o = some a → (wrap a).remains rule around = some (wrap a)) :
    (o.bind fun a => ((wrap a).remains rule around).bind pick) = o := by
  cases o with
  | none => rfl
  | some a => rw [Option.bind_some, h a rfl, Option.bind_some, hfamily.pick_wrap]

theorem getD_remains (hfamily : IsFamily pick wrap) {a : α}
    (h : (wrap a).remains rule around = some (wrap a)) :
    (((wrap a).remains rule around).bind pick).getD a = a := by
  rw [h, Option.bind_some, hfamily.pick_wrap, Option.getD_some]

end

theorem Call.refilled_of_slots {field : String} {c : Call}
    (h : ∀ slot ∈ c.slots field, slot.node.remains rule around = some slot.node) :
    c.refilled rule around = c := by
  simp only [slots, List.forall_mem_cons, List.forall_mem_append, List.forall_mem_map,
    Option.mem_toList] at h
  obtain ⟨hhead, hparams, hhash⟩ := h
  rw [refilled_eq, getD_remains isFamily_expr hhead, filterMap_remains isFamily_expr hparams,
    bind_remains isFamily_hash hhash]
  cases c
  rfl

theorem Block.refilled_of_slots {b : Block}
    (h : ∀ slot ∈ b.slots, slot.node.remains rule around = some slot.node) :
    b.refilled rule around = b := by
  simp only [slots, List.forall_mem_append, List.forall_mem_map, Option.mem_toList] at h
  obtain ⟨hcall, hprogram, hinverse⟩ := h
  rw [refilled_eq, Call.refilled_of_slots hcall, bind_remains isFamily_program hprogram,
    bind_remains isFamily_program hinverse]
  cases b
  rfl

theorem Expr.refilled_of_slots {e : Expr}
    (h : ∀ slot ∈ e.slots, slot.node.remains rule around = some slot.node) :
    (Node.expr e).refilled rule around = .expr e := by
  cases e with
  | sub node =>
      obtain ⟨call, written, loc⟩ := node
      rw [Node.refilled, Call.refilled_of_slots h]
  | array items loc =>
      rw [Node.refilled, filterMap_remains isFamily_expr fun _ he => h _ (List.mem_map_of_mem he)]
  | hash pairs loc =>
      rw [Node.refilled,
        filterMap_remains isFamily_hashPair fun _ hp => h _ (List.mem_map_of_mem hp)]
  | path | string | number | boolean | undefined | null => rw [Node.refilled] <;> simp

theorem Statement.refilled_of_slots {s : Statement}
    (h : ∀ slot ∈ s.slots, slot.node.remains rule around = some slot.node) :
    (Node.statement s).refilled rule around = .statement s := by
  cases s with
  | mustache node | decorator node =>
      obtain ⟨call, escaped, strip, loc⟩ := node
      rw [Node.refilled, Call.refilled_of_slots h]
  | inclusion node =>
      obtain ⟨call, indent, strip, loc⟩ := node
      rw [Node.refilled, Call.refilled_of_slots h]
  | block node | decoratorBlock node => rw [Node.refilled, Block.refilled_of_slots h]
  | inclusionBlock node =>
      obtain ⟨call, program, openStrip, closeStrip, loc⟩ := node
      obtain ⟨hcall, hprogram⟩ := List.forall_mem_append.mp h
      rw [Node.refilled, Call.refilled_of_slots hcall,
        getD_remains isFamily_program (hprogram _ List.mem_cons_self)]
  | content | comment => rw [Node.refilled] <;> simp

/-- A node whose slots keep what they hold is as before. -/
theorem Node.refilled_of_slots {n : Node}
    (h : ∀ slot ∈ n.slots, slot.node.remains rule around = some slot.node) :
    n.refilled rule around = n := by
  cases n with
  | program p =>
      obtain ⟨body, blockParams, chained, loc⟩ := p
      rw [refilled, filterMap_remains isFamily_statement fun _ hs => h _ (List.mem_map_of_mem hs)]
  | statement s => exact Statement.refilled_of_slots h
  | expr e => exact Expr.refilled_of_slots h
  | hash hash =>
      obtain ⟨pairs, loc⟩ := hash
      rw [refilled, filterMap_remains isFamily_hashPair fun _ hp => h _ (List.mem_map_of_mem hp)]
  | hashPair p =>
      obtain ⟨key, value, loc⟩ := p
      rw [refilled, getD_remains isFamily_expr (h _ List.mem_cons_self)]

end

/-- A node without a new text is as before. -/
theorem Node.withText_none (n : Node) : n.withText none = n := by
  unfold withText
  split
  case h_3 p => cases p; rfl
  case h_5 p => cases p; rfl
  all_goals rfl

/-- Where every node is kept, each remains as it is. -/
theorem Node.remains_keep (parents : List Frame) (n : Node) :
    n.remains (fun _ => .ofAction .keep) parents = some n := by
  have hslots : ∀ slot ∈ n.slots,
      slot.node.remains (fun _ => .ofAction .keep) (n.frame :: parents) = some slot.node :=
    fun slot _ => slot.node.remains_keep (n.frame :: parents)
  rw [remains, edited, Node.refilled_of_slots hslots]
  exact congrArg some n.withText_none
termination_by sizeOf n
decreasing_by exact Node.sizeOf_lt_of_mem_slots ‹_›

/-! ## The edit of a tree -/

/-- What the edit of a tree by actions comes to. -/
def Program.arrivals (act : Visit → Action) (p : Program) : List Arrival :=
  Slot.arrivals act [] ⟨"root", true, .program p⟩

theorem Decision.action_ofAction (action : Action) : (ofAction action).action = action := by
  cases action <;> rfl

/-- Where the slot of the root is not broken, a program remains in it. -/
theorem Program.exists_remains (rule : Rule) {parents : List Frame} {p : Program}
    (h : Slot.broken? ⟨"root", true, .program p⟩ parents (rule ⟨.program p, parents⟩).action =
      none) :
    ∃ q, (Node.program p).remains rule parents = some (.program q) := by
  rw [Node.remains]
  cases haction : (rule ⟨.program p, parents⟩).action with
  | keep =>
      obtain ⟨q, hq, -⟩ := (Node.program p).edits rule parents
      exact ⟨q, congrArg some hq.symm⟩
  | remove => simp [haction, Slot.broken?] at h
  | replace n =>
      cases n with
      | program q => exact ⟨q, rfl⟩
      | statement | expr | hash | hashPair =>
          simp [haction, Slot.broken?, Node.family] at h

/-- An edit by actions ends with the error of the first slot that is broken, and else it leads
to what remains of the tree.  It meets the nodes up to that slot. -/
theorem Program.edit_ofAction (act : Visit → Action) (p : Program) :
    let edit := p.edit fun v => .ofAction (act v)
    (match (p.arrivals act).findSome? (Arrival.broken? act) with
      | some e => edit.value = .error e
      | none => ∃ q, (Node.program p).remains (fun v => .ofAction (act v)) [] = some (.program q) ∧
          edit.value = .ok q) ∧
    edit.visits = ((p.arrivals act).take
      ((p.arrivals act).findIdx (fun r => (r.broken? act).isSome) + 1)).map Arrival.visit ∧
    (p.edit fun _ => .ofAction .keep).value = .ok p := by
  unfold Program.arrivals
  refine ⟨?_, ?_, ?_⟩
  · have hvalue := congrArg Walked.value (performs_root (fun v => .ofAction (act v)) p [])
    rw [Trace.result, Slot.trace_ofAction, Trace.error?_events] at hvalue
    cases hbroken : (Slot.arrivals act [] ⟨"root", true, .program p⟩).findSome?
        (Arrival.broken? act) with
    | some e =>
        rw [hbroken] at hvalue
        exact hvalue
    | none =>
        have hroot := List.findSome?_eq_none_iff.mp hbroken ⟨_, []⟩
          (by rw [Slot.arrivals_eq]; exact List.mem_cons_self)
        rw [Arrival.broken?, ← Decision.action_ofAction (act _)] at hroot
        obtain ⟨q, hq⟩ := Program.exists_remains (fun v => .ofAction (act v)) hroot
        rw [hbroken, hq] at hvalue
        exact ⟨q, hq, hvalue⟩
  · have hvisits := congrArg Walked.visits (performs_root (fun v => .ofAction (act v)) p [])
    rw [Slot.trace_ofAction] at hvisits
    exact hvisits.trans (Trace.met_events act _)
  · have hvalue := congrArg Walked.value (performs_root (fun _ => .ofAction .keep) p [])
    have hnone : (Slot.arrivals (fun _ => .keep) [] ⟨"root", true, .program p⟩).findSome?
        (Arrival.broken? fun _ => .keep) = none :=
      List.findSome?_eq_none_iff.mpr fun _ _ => rfl
    rw [Trace.result, Slot.trace_ofAction fun _ => .keep, Trace.error?_events, hnone,
      Node.remains_keep] at hvalue
    exact hvalue

end Stache
