import Stache.Proofs.Tree.Slots
import Stache.Traversal.Edit

/-!
# What an edit does

The engine of edits goes through a tree kind by kind.  Here the same is said of
a node by its slots, without the engine.

* `Node.edited` is what a rule makes of a node: the decision at each slot says
  what remains in it, and all else of the node is as before.
* `Node.trace` lists what happens on the way: a node is met, or a slot is
  broken, which ends the edit.

`Node.performs_edit` says that the engine does that and nothing else.  An edit
leads to the edited node unless the trace breaks off, it meets the nodes of the
trace up to there, and it leaves the stack as it was.
-/

namespace Stache

/-! ## Families -/

/-- What a node is, regardless of its exact kind.  A slot takes nodes of one family. -/
inductive Family where
  | program
  | statement
  | expr
  | hash
  | hashPair
deriving DecidableEq, Repr

/-- The family of a node. -/
def Node.family : Node → Family
  | .program _ => .program
  | .statement _ => .statement
  | .expr _ => .expr
  | .hash _ => .hash
  | .hashPair _ => .hashPair

/-- The nodes of one family, as `wrap` makes them and `pick` finds them. -/
structure IsFamily {α : Type} (pick : Node → Option α) (wrap : α → Node) : Prop where
  pick_wrap : ∀ a, pick (wrap a) = some a
  family_eq_iff : ∀ m a, m.family = (wrap a).family ↔ (pick m).isSome

/-- Programs are a family. -/
theorem isFamily_program : IsFamily Node.program? .program :=
  ⟨fun _ => rfl, fun m _ => by cases m <;> simp [Node.program?, Node.family]⟩

/-- Statements are a family. -/
theorem isFamily_statement : IsFamily Node.statement? .statement :=
  ⟨fun _ => rfl, fun m _ => by cases m <;> simp [Node.statement?, Node.family]⟩

/-- Expressions are a family. -/
theorem isFamily_expr : IsFamily Node.expr? .expr :=
  ⟨fun _ => rfl, fun m _ => by cases m <;> simp [Node.expr?, Node.family]⟩

theorem isFamily_hash : IsFamily Node.hash? .hash :=
  ⟨fun _ => rfl, fun m _ => by cases m <;> simp [Node.hash?, Node.family]⟩

theorem isFamily_hashPair : IsFamily Node.hashPair? .hashPair :=
  ⟨fun _ => rfl, fun m _ => by cases m <;> simp [Node.hashPair?, Node.family]⟩

/-! ## What remains of a tree -/

/-- A node with a new text, if there is one and the node has a place for it. -/
def Node.withText (text : Option Text) : Node → Node
  | .statement (.content c) => .statement (.content { c with value := text.getD c.value })
  | .statement (.comment c) => .statement (.comment { c with value := text.getD c.value })
  | .expr (.path p) => .expr (.path { p with written := text.getD p.written })
  | .expr (.string value written loc) => .expr (.string (text.getD value) written loc)
  | .hashPair p => .hashPair { p with key := text.getD p.key }
  | n => n

section

variable (rule : Rule)

mutual

/-- What remains in the slot of a node.  `parents` are the nodes around it. -/
def Node.remains (parents : List Frame) (n : Node) : Option Node :=
  match (rule ⟨n, parents⟩).action with
  | .keep => some (n.edited parents)
  | .remove => none
  | .replace m => some m
termination_by (sizeOf n, 2)

/-- A node that stays, with its text set and its slots filled anew if the rule wants it. -/
def Node.edited (parents : List Frame) (n : Node) : Node :=
  let d := rule ⟨n, parents⟩
  (if d.descend then n.refilled (n.frame :: parents) else n).withText d.text
termination_by (sizeOf n, 1)

/-- A node with what remains in its slots.  A list loses the members that do not remain, an
optional slot is empty then, and a required one is left as it is. -/
def Node.refilled (around : List Frame) : Node → Node
  | .program ⟨body, blockParams, chained, loc⟩ =>
      .program
        ⟨body.filterMap fun s => (Node.remains around (.statement s)).bind Node.statement?,
          blockParams, chained, loc⟩
  | .statement (.mustache ⟨call, escaped, strip, loc⟩) =>
      .statement (.mustache ⟨call.refilled around, escaped, strip, loc⟩)
  | .statement (.decorator ⟨call, escaped, strip, loc⟩) =>
      .statement (.decorator ⟨call.refilled around, escaped, strip, loc⟩)
  | .statement (.block node) => .statement (.block (node.refilled around))
  | .statement (.decoratorBlock node) => .statement (.decoratorBlock (node.refilled around))
  | .statement (.inclusion ⟨call, indent, strip, loc⟩) =>
      .statement (.inclusion ⟨call.refilled around, indent, strip, loc⟩)
  | .statement (.inclusionBlock ⟨call, program, opening, closing, loc⟩) =>
      .statement (.inclusionBlock
        ⟨call.refilled around,
          ((Node.remains around (.program program)).bind Node.program?).getD program,
          opening, closing, loc⟩)
  | .expr (.sub ⟨call, written, loc⟩) => .expr (.sub ⟨call.refilled around, written, loc⟩)
  | .expr (.array items loc) =>
      .expr (.array
        (items.filterMap fun e => (Node.remains around (.expr e)).bind Node.expr?) loc)
  | .expr (.hash pairs loc) =>
      .expr (.hash
        (pairs.filterMap fun p => (Node.remains around (.hashPair p)).bind Node.hashPair?) loc)
  | .hash ⟨pairs, loc⟩ =>
      .hash
        ⟨pairs.filterMap fun p => (Node.remains around (.hashPair p)).bind Node.hashPair?, loc⟩
  | .hashPair ⟨key, value, loc⟩ =>
      .hashPair ⟨key, ((Node.remains around (.expr value)).bind Node.expr?).getD value, loc⟩
  | n => n
termination_by n => (sizeOf n, 0)
decreasing_by
  all_goals first
    | decreasing_tactic
    | have := List.sizeOf_lt_of_mem ‹_ ∈ _›
      decreasing_with omega

/-- A call with what remains in its slots. -/
def Call.refilled (around : List Frame) : Call → Call
  | ⟨head, params, hash⟩ =>
      ⟨((Node.remains around (.expr head)).bind Node.expr?).getD head,
        params.filterMap fun e => (Node.remains around (.expr e)).bind Node.expr?,
        match hash with
        | none => none
        | some h => (Node.remains around (.hash h)).bind Node.hash?⟩
termination_by c => (1 + sizeOf c, 0)
decreasing_by
  all_goals first
    | decreasing_tactic
    | have := List.sizeOf_lt_of_mem ‹_ ∈ _›
      decreasing_with omega

/-- A block with what remains in its slots. -/
def Block.refilled (around : List Frame) : Block → Block
  | ⟨call, program, inverse, opening, middle, closing, loc⟩ =>
      ⟨call.refilled around,
        match program with
        | none => none
        | some p => (Node.remains around (.program p)).bind Node.program?,
        match inverse with
        | none => none
        | some p => (Node.remains around (.program p)).bind Node.program?,
        opening, middle, closing, loc⟩
termination_by b => (1 + sizeOf b, 0)

end

/-- What remains of a call is what remains in its slots. -/
theorem Call.refilled_eq (around : List Frame) (c : Call) :
    c.refilled rule around =
      ⟨(((Node.expr c.head).remains rule around).bind Node.expr?).getD c.head,
        c.params.filterMap fun e => ((Node.expr e).remains rule around).bind Node.expr?,
        c.hash.bind fun h => ((Node.hash h).remains rule around).bind Node.hash?⟩ := by
  obtain ⟨head, params, _ | h⟩ := c <;> rw [refilled] <;> rfl

/-- What remains of a block is what remains in its slots. -/
theorem Block.refilled_eq (around : List Frame) (b : Block) :
    b.refilled rule around =
      ⟨b.call.refilled rule around,
        b.program.bind fun p => ((Node.program p).remains rule around).bind Node.program?,
        b.inverse.bind fun p => ((Node.program p).remains rule around).bind Node.program?,
        b.openStrip, b.inverseStrip, b.closeStrip, b.loc⟩ := by
  obtain ⟨call, _ | program, _ | inverse, opening, middle, closing, loc⟩ := b <;>
    rw [refilled] <;> rfl

end

/-! ## What happens on the way -/

/-- How a decision on its node breaks a slot, if it does.  `parents` are the nodes around. -/
def Slot.broken? (slot : Slot) (parents : List Frame) : Action → Option EditError
  | .keep => none
  | .remove =>
      if slot.required then
        some (.requiredRemoved slot.field (Walk.parentKind parents) slot.node.loc?)
      else none
  | .replace m =>
      if m.family = slot.node.family then none
      else some (.wrongFamily slot.field (Walk.parentKind parents) m.kind slot.node.loc?)

/-- What happens in an edit, in order: a node is met, or a slot is broken. -/
abbrev Trace := List (Except EditError Visit)

/-- What happens in the edit of a node. -/
def Node.trace (rule : Rule) (parents : List Frame) (n : Node) : Trace :=
  .ok ⟨n, parents⟩ ::
    if (rule ⟨n, parents⟩).descend then
      n.slots.attach.flatMap fun slot =>
        slot.1.node.trace rule (n.frame :: parents) ++
          ((slot.1.broken? (n.frame :: parents)
            (rule ⟨slot.1.node, n.frame :: parents⟩).action).map Except.error).toList
    else []
termination_by sizeOf n
decreasing_by exact Node.sizeOf_lt_of_mem_slots slot.2

/-- What happens in the edit of a slot. -/
def Slot.trace (rule : Rule) (parents : List Frame) (slot : Slot) : Trace :=
  slot.node.trace rule parents ++
    ((slot.broken? parents (rule ⟨slot.node, parents⟩).action).map Except.error).toList

/-- A node is met, and then its slots, if the rule goes down. -/
theorem Node.trace_eq (rule : Rule) (parents : List Frame) (n : Node) :
    n.trace rule parents =
      .ok ⟨n, parents⟩ ::
        if (rule ⟨n, parents⟩).descend then n.slots.flatMap (Slot.trace rule (n.frame :: parents))
        else [] := by
  rw [trace, ← flatMap_attach n.slots (Slot.trace rule (n.frame :: parents))]
  rfl

/-- The slot that is broken first, as an error. -/
def Trace.error? : Trace → Option EditError
  | [] => none
  | .ok _ :: rest => Trace.error? rest
  | .error e :: _ => some e
termination_by structural trace => trace

/-- The nodes that are met before a slot is broken. -/
def Trace.met : Trace → List Visit
  | [] => []
  | .ok v :: rest => v :: Trace.met rest
  | .error _ :: _ => []
termination_by structural trace => trace

/-- What an edit leads to: `a`, or the error that its trace breaks off with. -/
def Trace.result {α : Type} (trace : Trace) (a : α) : Except EditError α :=
  match trace.error? with
  | none => .ok a
  | some e => .error e

/-- A trace breaks off in its first part or, behind it, in the second. -/
theorem Trace.error?_append (first second : Trace) :
    Trace.error? (first ++ second) = first.error?.or second.error? := by
  induction first with
  | nil => rfl
  | cons event rest ih =>
      cases event with
      | ok v => exact ih
      | error e => rfl

/-- Behind a breach no node is met. -/
theorem Trace.met_append (first second : Trace) :
    Trace.met (first ++ second) =
      first.met ++ if first.error?.isSome then [] else second.met := by
  induction first with
  | nil => rfl
  | cons event rest ih =>
      cases event with
      | ok v => exact congrArg (List.cons v) ih
      | error e => rfl

/-! ## Pieces of an edit -/

section

variable {α β : Type} {rule : Rule} {stack parents : List Frame}

/-- From a stack, a piece of an edit leads to `a` if its trace does not break off. -/
def Performs (m : Editing α) (stack : List Frame) (a : α) (trace : Trace) : Prop :=
  m.run stack = ⟨trace.result a, trace.met, stack⟩

namespace Performs

variable {m : Editing α} {next : α → Editing β} {a : α} {b : β} {first second : Trace}

theorem pure (a : α) : Performs (Pure.pure a) stack a [] := rfl

/-- One piece performs behind the other. -/
theorem bind (hm : Performs m stack a first) (hnext : Performs (next a) stack b second) :
    Performs (m >>= next) stack b (first ++ second) := by
  show Walk.andThen m.run (ExceptT.bindCont next) stack =
    ⟨Trace.result (first ++ second) b, Trace.met (first ++ second), stack⟩
  rw [Walk.andThen, show m.run stack = _ from hm, Trace.result, Trace.result, Trace.error?_append,
    Trace.met_append]
  cases first.error? with
  | none =>
      show Walked.mk ((next a).run stack).value (first.met ++ ((next a).run stack).visits)
        ((next a).run stack).stack = _
      rw [show (next a).run stack = _ from hnext]
      rfl
  | some e => rfl

/-- What a piece gives may be packed up. -/
theorem map {f : α → β} (hm : Performs m stack a first) :
    Performs (f <$> m) stack (f a) first := by
  have h : Performs (m >>= fun a => Pure.pure (f a)) stack (f a) (first ++ []) :=
    bind hm (pure (f a))
  rw [List.append_nil] at h
  exact h

/-- A node is met before what happens inside of it, and it is left afterwards. -/
theorem visit {n : Node} (hm : Performs m (n.frame :: stack) a first) :
    Performs (ExceptT.mk (Walk.visit n m.run)) stack a (.ok ⟨n, stack⟩ :: first) := by
  show Walk.visit n m.run stack = _
  rw [Walk.visit_apply, show m.run _ = _ from hm]
  rfl

/-- The children are edited if the decision says so. -/
theorem below {d : Decision} {a' : α} (hm : Performs m stack a first) :
    Performs (Editing.below d a' m) stack (if d.descend then a else a')
      (if d.descend then first else []) := by
  unfold Editing.below
  split
  · exact hm
  · exact pure a'

end Performs

/-! ## Slots -/

/-- The edit of a node leads to what the rule makes of it, with the trace of the node. -/
def EditsTo (rule : Rule) (parents : List Frame) (wrap : α → Node) (n : Node)
    (m : Editing (Occupant α)) : Prop :=
  ∃ a, wrap a = n.edited rule parents ∧
    Performs m parents ⟨a, n.loc?, (rule ⟨n, parents⟩).action⟩ (n.trace rule parents)

variable {pick : Node → Option α} {wrap : α → Node} {a : α} {m : Editing (Occupant α)}

/-- A node that the rule is asked about is met, and edited inside by the decision. -/
theorem editsTo_ask {n : Node} {inside : Decision → Editing α}
    (ha : wrap a = n.edited rule parents)
    (h : Performs (inside (rule ⟨n, parents⟩)) (n.frame :: parents) a
      (if (rule ⟨n, parents⟩).descend then n.slots.flatMap (Slot.trace rule (n.frame :: parents))
        else [])) :
    EditsTo rule parents wrap n (Editing.ask rule n inside) := by
  refine ⟨a, ha, ?_⟩
  rw [Node.trace_eq]
  exact h.visit.map

theorem performs_parent : Performs Editing.parent stack (Walk.parentKind stack) [] := rfl

/-- A slot that may be empty holds what remains of its node. -/
theorem performs_optionalSlot (field : String) (hfamily : IsFamily pick wrap)
    (h : EditsTo rule parents wrap (wrap a) m) :
    Performs (Editing.optionalSlot field pick m) parents
      (((wrap a).remains rule parents).bind pick)
      (Slot.trace rule parents ⟨field, false, wrap a⟩) := by
  obtain ⟨b, hb, hm⟩ := h
  refine performs_parent.bind (hm.bind ?_)
  rw [Node.remains, ← hb]
  cases (rule ⟨wrap a, parents⟩).action with
  | keep =>
      show Performs _ _ (pick (wrap b)) []
      rw [hfamily.pick_wrap]
      rfl
  | remove => rfl
  | replace n =>
      simp only [Editing.fillOptional, Slot.broken?, Option.bind_some,
        hfamily.family_eq_iff n a]
      cases pick n <;> rfl

/-- A slot that must be filled holds what remains of its node. -/
theorem performs_requiredSlot (hfamily : IsFamily pick wrap) {field : String}
    (h : EditsTo rule parents wrap (wrap a) m) :
    Performs (Editing.requiredSlot field pick m) parents
      ((((wrap a).remains rule parents).bind pick).getD a)
      (Slot.trace rule parents ⟨field, true, wrap a⟩) := by
  obtain ⟨b, hb, hm⟩ := h
  refine performs_parent.bind (hm.bind ?_)
  rw [Node.remains, ← hb]
  cases (rule ⟨wrap a, parents⟩).action with
  | keep =>
      show Performs _ _ ((pick (wrap b)).getD a) []
      rw [hfamily.pick_wrap]
      rfl
  | remove => rfl
  | replace n =>
      simp only [Editing.fillRequired, Editing.fillOptional, Slot.broken?, Option.bind_some,
        hfamily.family_eq_iff n a]
      cases pick n <;> rfl

/-- A list keeps what remains of its members. -/
theorem performs_list (hfamily : IsFamily pick wrap) {field : String}
    {one : α → Editing (Occupant α)} {all : List α → Editing (List α)}
    (hnil : all [] = pure [])
    (hcons : ∀ a rest, all (a :: rest) = do
      let first ← Editing.optionalSlot field pick (one a)
      let rest ← all rest
      return first.toList ++ rest)
    (members : List α) (h : ∀ a ∈ members, EditsTo rule parents wrap (wrap a) (one a)) :
    Performs (all members) parents
      (members.filterMap fun a => ((wrap a).remains rule parents).bind pick)
      ((members.map (⟨field, false, wrap ·⟩)).flatMap (Slot.trace rule parents)) := by
  induction members with
  | nil => exact hnil ▸ .pure []
  | cons a rest ih =>
      have hfirst := performs_optionalSlot field hfamily (h a List.mem_cons_self)
      have hrest := ih fun b hb => h b (List.mem_cons_of_mem a hb)
      have hremain : (a :: rest).filterMap (fun a => ((wrap a).remains rule parents).bind pick) =
          (((wrap a).remains rule parents).bind pick).toList ++
            rest.filterMap fun a => ((wrap a).remains rule parents).bind pick := by
        rw [List.filterMap_cons]
        cases ((wrap a).remains rule parents).bind pick <;> rfl
      rw [hcons, hremain, List.map_cons, List.flatMap_cons]
      exact hfirst.bind hrest.map

end

/-! ## The edit of a node -/

section

variable {rule : Rule} {parents : List Frame}

/-- The engine edits a node as the rule has it, inside of whatever nodes. -/
def Node.Edits (rule : Rule) : Node → Prop
  | .program p => ∀ parents, EditsTo rule parents .program (.program p) (Edit.program rule p)
  | .statement s =>
      ∀ parents, EditsTo rule parents .statement (.statement s) (Edit.statement rule s)
  | .expr e => ∀ parents, EditsTo rule parents .expr (.expr e) (Edit.expr rule e)
  | .hash h => ∀ parents, EditsTo rule parents .hash (.hash h) (Edit.hash rule h)
  | .hashPair p => ∀ parents, EditsTo rule parents .hashPair (.hashPair p) (Edit.hashPair rule p)

/-- Arguments are edited one by one, and those that are removed are missing. -/
theorem performs_exprs {field : String} (es : List Expr)
    (h : ∀ e ∈ es, (Node.expr e).Edits rule) :
    Performs (Edit.exprs rule field es) parents
      (es.filterMap fun e => ((Node.expr e).remains rule parents).bind Node.expr?)
      ((es.map (⟨field, false, .expr ·⟩)).flatMap (Slot.trace rule parents)) :=
  performs_list isFamily_expr (by rw [Edit.exprs]) (fun e rest => by rw [Edit.exprs]) es
    fun e he => h e he parents

/-- Pairs are edited one by one, and those that are removed are missing. -/
theorem performs_hashPairs (pairs : List HashPair)
    (h : ∀ p ∈ pairs, (Node.hashPair p).Edits rule) :
    Performs (Edit.hashPairs rule pairs) parents
      (pairs.filterMap fun p => ((Node.hashPair p).remains rule parents).bind Node.hashPair?)
      ((pairs.map (⟨"pairs", false, .hashPair ·⟩)).flatMap (Slot.trace rule parents)) :=
  performs_list isFamily_hashPair (by rw [Edit.hashPairs]) (fun p rest => by rw [Edit.hashPairs])
    pairs fun p hp => h p hp parents

/-- Statements are edited one by one, and those that are removed are missing. -/
theorem performs_statements (body : List Statement)
    (h : ∀ s ∈ body, (Node.statement s).Edits rule) :
    Performs (Edit.statements rule body) parents
      (body.filterMap fun s => ((Node.statement s).remains rule parents).bind Node.statement?)
      ((body.map (⟨"body", false, .statement ·⟩)).flatMap (Slot.trace rule parents)) :=
  performs_list isFamily_statement (by rw [Edit.statements]) (fun s rest => by rw [Edit.statements])
    body fun s hs => h s hs parents

/-- Named arguments are edited if there are any. -/
theorem performs_hash? (h : Option Hash) (hedits : ∀ h' ∈ h, (Node.hash h').Edits rule) :
    Performs (Edit.hash? rule h) parents
      (h.bind fun h => ((Node.hash h).remains rule parents).bind Node.hash?)
      ((h.toList.map (⟨"hash", false, .hash ·⟩)).flatMap (Slot.trace rule parents)) := by
  cases h with
  | none =>
      rw [Edit.hash?]
      exact .pure none
  | some h =>
      rw [Edit.hash?]
      have hslot := performs_optionalSlot "hash" isFamily_hash (hedits h rfl parents)
      simpa using hslot

/-- A section is edited if it is there. -/
theorem performs_program? {field : String} (p : Option Program)
    (hedits : ∀ p' ∈ p, (Node.program p').Edits rule) :
    Performs (Edit.program? rule field p) parents
      (p.bind fun p => ((Node.program p).remains rule parents).bind Node.program?)
      ((p.toList.map (⟨field, false, .program ·⟩)).flatMap (Slot.trace rule parents)) := by
  cases p with
  | none =>
      rw [Edit.program?]
      exact .pure none
  | some p =>
      rw [Edit.program?]
      have hslot := performs_optionalSlot field isFamily_program (hedits p rfl parents)
      simpa using hslot

/-- The slots of a call are edited in order. -/
theorem performs_call {field : String} (c : Call)
    (h : ∀ slot ∈ c.slots field, slot.node.Edits rule) :
    Performs (Edit.call rule field c) parents (c.refilled rule parents)
      ((c.slots field).flatMap (Slot.trace rule parents)) := by
  obtain ⟨head, params, hash⟩ := c
  simp only [Call.slots, List.forall_mem_cons, List.forall_mem_append, List.forall_mem_map,
    Option.mem_toList] at h
  obtain ⟨hhead, hparams, hhash⟩ := h
  rw [Edit.call, Call.refilled_eq, Call.slots, List.flatMap_cons, List.flatMap_append]
  exact (performs_requiredSlot isFamily_expr (hhead parents)).bind
    ((performs_exprs params hparams).bind (performs_hash? hash hhash).map)

/-- The slots of a block are edited in order. -/
theorem performs_block (b : Block) (h : ∀ slot ∈ b.slots, slot.node.Edits rule) :
    Performs (Edit.block rule b) parents (b.refilled rule parents)
      (b.slots.flatMap (Slot.trace rule parents)) := by
  obtain ⟨call, program, inverse, openStrip, inverseStrip, closeStrip, loc⟩ := b
  simp only [Block.slots, List.forall_mem_append, List.forall_mem_map, Option.mem_toList] at h
  obtain ⟨hcall, hprogram, hinverse⟩ := h
  rw [Edit.block, Block.refilled_eq, Block.slots, List.flatMap_append, List.flatMap_append]
  exact (performs_call call hcall).bind
    ((performs_program? program hprogram).bind (performs_program? inverse hinverse).map)

/-- The slots of a partial block are edited in order. -/
theorem performs_inclusionBlock (b : InclusionBlock)
    (h : ∀ slot ∈ (Statement.inclusionBlock b).slots, slot.node.Edits rule) :
    Performs (Edit.inclusionBlock rule b) parents
      ⟨b.call.refilled rule parents,
        (((Node.program b.program).remains rule parents).bind Node.program?).getD b.program,
        b.openStrip, b.closeStrip, b.loc⟩
      ((Statement.inclusionBlock b).slots.flatMap (Slot.trace rule parents)) := by
  obtain ⟨call, program, openStrip, closeStrip, loc⟩ := b
  simp only [Statement.slots, List.forall_mem_append, List.forall_mem_singleton] at h
  obtain ⟨hcall, hprogram⟩ := h
  rw [Edit.inclusionBlock, Statement.slots, List.flatMap_append, List.flatMap_singleton]
  exact (performs_call call hcall).bind
    (performs_requiredSlot isFamily_program (hprogram parents)).map

/-- A node with children goes on with what remains of them if the decision says so. -/
theorem editsTo_below {α : Type} {wrap : α → Node} {n : Node} {a : α} {a' : Decision → α}
    {m : Decision → Editing α}
    (ha : wrap a = (n.refilled rule (n.frame :: parents)).withText (rule ⟨n, parents⟩).text)
    (ha' : ∀ d, wrap (a' d) = n.withText d.text)
    (h : Performs (m (rule ⟨n, parents⟩)) (n.frame :: parents) a
      (n.slots.flatMap (Slot.trace rule (n.frame :: parents)))) :
    EditsTo rule parents wrap n
      (Editing.ask rule n fun d => Editing.below d (a' d) (m d)) := by
  refine editsTo_ask ?_ h.below
  rw [Node.edited]
  split
  · exact ha
  · exact ha' _

/-- A node without children is what its text makes of it. -/
theorem editsTo_leaf {α : Type} {wrap : α → Node} {n : Node} {inside : Decision → α}
    (hslots : n.slots = [])
    (ha : ∀ d, wrap (inside d) = n.withText d.text)
    (hn : n.refilled rule (n.frame :: parents) = n) :
    EditsTo rule parents wrap n (Editing.ask rule n fun d => pure (inside d)) := by
  refine editsTo_ask (a := inside (rule ⟨n, parents⟩)) ?_ ?_
  · rw [Node.edited, hn, ite_self, ha]
  · rw [hslots, List.flatMap_nil, ite_self]
    exact .pure _

/-- An expression is edited like its slots. -/
theorem Expr.edits (e : Expr) (h : ∀ slot ∈ e.slots, slot.node.Edits rule) :
    (Node.expr e).Edits rule := by
  intro parents
  cases e with
  | sub node =>
      obtain ⟨call, written, loc⟩ := node
      rw [Edit.expr, Edit.subExpr]
      exact editsTo_below (by rw [Node.refilled]; rfl) (fun _ => rfl) (performs_call call h).map.map
  | array items loc =>
      rw [Edit.expr]
      exact editsTo_below (by rw [Node.refilled]; rfl) (fun _ => rfl)
        (performs_exprs items fun _ he => h _ (List.mem_map_of_mem he)).map
  | hash pairs loc =>
      rw [Edit.expr]
      exact editsTo_below (by rw [Node.refilled]; rfl) (fun _ => rfl)
        (performs_hashPairs pairs fun _ he => h _ (List.mem_map_of_mem he)).map
  | path | string | number | boolean | undefined | null =>
      rw [Edit.expr]
      exact editsTo_leaf rfl (fun _ => rfl) (by rw [Node.refilled] <;> simp)

/-- A statement is edited like its slots. -/
theorem Statement.edits (s : Statement) (h : ∀ slot ∈ s.slots, slot.node.Edits rule) :
    (Node.statement s).Edits rule := by
  intro parents
  cases s with
  | mustache node | decorator node =>
      obtain ⟨call, escaped, strip, loc⟩ := node
      rw [Edit.statement]
      exact editsTo_below (by rw [Node.refilled]; rfl) (fun _ => rfl) (performs_call call h).map.map
  | inclusion node =>
      obtain ⟨call, indent, strip, loc⟩ := node
      rw [Edit.statement]
      exact editsTo_below (by rw [Node.refilled]; rfl) (fun _ => rfl) (performs_call call h).map.map
  | block node | decoratorBlock node =>
      rw [Edit.statement]
      exact editsTo_below (by rw [Node.refilled]; rfl) (fun _ => rfl) (performs_block node h).map
  | inclusionBlock node =>
      obtain ⟨call, program, openStrip, closeStrip, loc⟩ := node
      rw [Edit.statement]
      exact editsTo_below (by rw [Node.refilled]; rfl) (fun _ => rfl) (performs_inclusionBlock _ h).map
  | content | comment =>
      rw [Edit.statement]
      exact editsTo_leaf rfl (fun _ => rfl) (by rw [Node.refilled] <;> simp)

/-- The engine edits a node if it edits what fills its slots. -/
theorem Node.edits_of_slots (n : Node) (h : ∀ slot ∈ n.slots, slot.node.Edits rule) :
    n.Edits rule := by
  cases n with
  | program p =>
      intro parents
      obtain ⟨body, blockParams, chained, loc⟩ := p
      rw [Edit.program]
      exact editsTo_below (by rw [Node.refilled]; rfl) (fun _ => rfl)
        (performs_statements body fun _ he => h _ (List.mem_map_of_mem he)).map
  | statement s => exact s.edits h
  | expr e => exact e.edits h
  | hash hash =>
      intro parents
      obtain ⟨pairs, loc⟩ := hash
      rw [Edit.hash]
      exact editsTo_below (by rw [Node.refilled]; rfl) (fun _ => rfl)
        (performs_hashPairs pairs fun _ he => h _ (List.mem_map_of_mem he)).map
  | hashPair p =>
      intro parents
      obtain ⟨key, value, loc⟩ := p
      rw [Edit.hashPair]
      have hvalue : (Node.expr value).Edits rule := h _ List.mem_cons_self
      refine editsTo_below (by rw [Node.refilled]; rfl) (fun _ => rfl) ?_
      rw [Node.slots, List.flatMap_singleton]
      exact (performs_requiredSlot isFamily_expr (hvalue _)).map

/-- The engine edits every node as the rule has it. -/
theorem Node.edits (rule : Rule) (n : Node) : n.Edits rule :=
  n.edits_of_slots fun slot _ => slot.node.edits rule
termination_by sizeOf n
decreasing_by exact Node.sizeOf_lt_of_mem_slots ‹_›

/-- The edit of a node, whatever becomes of the slot that it fills. -/
def Node.edit (rule : Rule) : Node → Editing Node
  | .program p => (fun o => .program o.node) <$> Edit.program rule p
  | .statement s => (fun o => .statement o.node) <$> Edit.statement rule s
  | .expr e => (fun o => .expr o.node) <$> Edit.expr rule e
  | .hash h => (fun o => .hash o.node) <$> Edit.hash rule h
  | .hashPair p => (fun o => .hashPair o.node) <$> Edit.hashPair rule p

/-- The edit of a node, inside of whatever nodes, leads to the edited node unless its trace
breaks off.  It meets the nodes of the trace up to there and leaves the stack as it was. -/
theorem Node.performs_edit (rule : Rule) (parents : List Frame) (n : Node) :
    Performs (n.edit rule) parents (n.edited rule parents) (n.trace rule parents) := by
  cases n with
  | program p =>
      obtain ⟨q, hq, h⟩ := (Node.program p).edits rule parents
      exact hq ▸ h.map
  | statement s =>
      obtain ⟨t, ht, h⟩ := (Node.statement s).edits rule parents
      exact ht ▸ h.map
  | expr e =>
      obtain ⟨e', he, h⟩ := (Node.expr e).edits rule parents
      exact he ▸ h.map
  | hash a =>
      obtain ⟨b, hb, h⟩ := (Node.hash a).edits rule parents
      exact hb ▸ h.map
  | hashPair p =>
      obtain ⟨q, hq, h⟩ := (Node.hashPair p).edits rule parents
      exact hq ▸ h.map

/-- The edit of a tree leads to what remains in the slot of its root. -/
theorem performs_root (rule : Rule) (p : Program) (parents : List Frame) :
    Performs (Editing.requiredSlot "root" Node.program? (Edit.program rule p)) parents
      ((((Node.program p).remains rule parents).bind Node.program?).getD p)
      (Slot.trace rule parents ⟨"root", true, .program p⟩) :=
  performs_requiredSlot isFamily_program ((Node.program p).edits rule parents)

end

end Stache
