import Stache.Tree.Node

/-!
# Slots

A node holds its children in slots.  A slot has the name of the field that it
is, and it may be one that must not be empty.  The slots of a node are listed in
the order in which a traversal meets what fills them: the head of a call, its
parameters and its hash, then the sections of a block.  Lists give a slot to
each member.

The call at the head of a path belongs to the path and fills no slot.
-/

namespace Stache

/-- A slot, and what fills it. -/
structure Slot where
  field : String
  /-- It must not be empty. -/
  required : Bool
  node : Node

/-- The slots of a call.  `field` names that of its head. -/
def Call.slots (field : String) (c : Call) : List Slot :=
  ⟨field, true, .expr c.head⟩ ::
    (c.params.map (⟨"params", false, .expr ·⟩) ++ c.hash.toList.map (⟨"hash", false, .hash ·⟩))

/-- The slots of a block. -/
def Block.slots (b : Block) : List Slot :=
  b.call.slots "path" ++
    (b.program.toList.map (⟨"program", false, .program ·⟩) ++
      b.inverse.toList.map (⟨"inverse", false, .program ·⟩))

/-- The slots of an expression. -/
def Expr.slots : Expr → List Slot
  | .sub node => node.call.slots "path"
  | .array items _ => items.map (⟨"items", false, .expr ·⟩)
  | .hash pairs _ => pairs.map (⟨"pairs", false, .hashPair ·⟩)
  | .path _ | .string .. | .number .. | .boolean .. | .undefined _ | .null _ => []

/-- The slots of a statement. -/
def Statement.slots : Statement → List Slot
  | .mustache node | .decorator node => node.call.slots "path"
  | .block node | .decoratorBlock node => node.slots
  | .inclusion node => node.call.slots "name"
  | .inclusionBlock node => node.call.slots "name" ++ [⟨"program", true, .program node.program⟩]
  | .content _ | .comment _ => []

/-- The slots of a node. -/
def Node.slots : Node → List Slot
  | .program node => node.body.map (⟨"body", false, .statement ·⟩)
  | .statement node => node.slots
  | .expr node => node.slots
  | .hash node => node.pairs.map (⟨"pairs", false, .hashPair ·⟩)
  | .hashPair node => [⟨"value", true, .expr node.value⟩]

/-! ## Slots hold smaller nodes -/

/-- A recursion over the slots of a node attaches to each that it is one of them.  Afterwards
that does not matter. -/
theorem flatMap_attach {α β : Type} (members : List α) (f : α → List β) :
    (members.attach.flatMap fun a => f a.1) = members.flatMap f := by
  have hmap := List.flatMap_map Subtype.val f members.attach
  rw [List.attach_map_subtype_val] at hmap
  exact hmap.symm

theorem Call.sizeOf_le_of_mem_slots {field : String} {c : Call} {slot : Slot}
    (h : slot ∈ c.slots field) : sizeOf slot.node ≤ sizeOf c := by
  obtain ⟨head, params, hash⟩ := c
  simp only [slots, List.mem_cons, List.mem_append, List.mem_map, Option.mem_toList] at h
  rcases h with rfl | ⟨e, he, rfl⟩ | ⟨hash', rfl, rfl⟩
  · simp only [Node.expr.sizeOf_spec, Call.mk.sizeOf_spec]
    omega
  · have := List.sizeOf_lt_of_mem he
    simp only [Node.expr.sizeOf_spec, Call.mk.sizeOf_spec]
    omega
  · simp only [Node.hash.sizeOf_spec, Call.mk.sizeOf_spec, Option.some.sizeOf_spec]
    omega

theorem Block.sizeOf_le_of_mem_slots {b : Block} {slot : Slot} (h : slot ∈ b.slots) :
    sizeOf slot.node ≤ sizeOf b := by
  obtain ⟨call, program, inverse, opening, middle, closing, loc⟩ := b
  simp only [slots, List.mem_append, List.mem_map, Option.mem_toList] at h
  rcases h with h | ⟨p, rfl, rfl⟩ | ⟨p, rfl, rfl⟩
  · have : sizeOf slot.node ≤ sizeOf call := Call.sizeOf_le_of_mem_slots h
    simp only [Block.mk.sizeOf_spec]
    omega
  · simp only [Node.program.sizeOf_spec, Block.mk.sizeOf_spec, Option.some.sizeOf_spec]
    omega
  · simp only [Node.program.sizeOf_spec, Block.mk.sizeOf_spec, Option.some.sizeOf_spec]
    omega

theorem Expr.sizeOf_le_of_mem_slots {e : Expr} {slot : Slot} (h : slot ∈ e.slots) :
    sizeOf slot.node ≤ sizeOf e := by
  cases e with
  | sub node =>
      obtain ⟨call, written, loc⟩ := node
      have : sizeOf slot.node ≤ sizeOf call := Call.sizeOf_le_of_mem_slots h
      simp only [Expr.sub.sizeOf_spec, SubExpr.mk.sizeOf_spec]
      omega
  | array items loc =>
      obtain ⟨e, he, rfl⟩ := List.mem_map.mp h
      have := List.sizeOf_lt_of_mem he
      simp only [Node.expr.sizeOf_spec, Expr.array.sizeOf_spec]
      omega
  | hash pairs loc =>
      obtain ⟨p, hp, rfl⟩ := List.mem_map.mp h
      have := List.sizeOf_lt_of_mem hp
      simp only [Node.hashPair.sizeOf_spec, Expr.hash.sizeOf_spec]
      omega
  | path | string | number | boolean | undefined | null => cases h

theorem Statement.sizeOf_le_of_mem_slots {s : Statement} {slot : Slot} (h : slot ∈ s.slots) :
    sizeOf slot.node ≤ sizeOf s := by
  cases s with
  | mustache node | decorator node =>
      obtain ⟨call, escaped, strip, loc⟩ := node
      have : sizeOf slot.node ≤ sizeOf call := Call.sizeOf_le_of_mem_slots h
      simp only [Statement.mustache.sizeOf_spec, Statement.decorator.sizeOf_spec,
        Mustache.mk.sizeOf_spec]
      omega
  | block node | decoratorBlock node =>
      have := Block.sizeOf_le_of_mem_slots h
      simp only [Statement.block.sizeOf_spec, Statement.decoratorBlock.sizeOf_spec]
      omega
  | inclusion node =>
      obtain ⟨call, indent, strip, loc⟩ := node
      have : sizeOf slot.node ≤ sizeOf call := Call.sizeOf_le_of_mem_slots h
      simp only [Statement.inclusion.sizeOf_spec, Inclusion.mk.sizeOf_spec]
      omega
  | inclusionBlock node =>
      obtain ⟨call, program, opening, closing, loc⟩ := node
      simp only [Statement.inclusionBlock.sizeOf_spec, InclusionBlock.mk.sizeOf_spec]
      rcases List.mem_append.mp h with h | h
      · have : sizeOf slot.node ≤ sizeOf call := Call.sizeOf_le_of_mem_slots h
        omega
      · obtain rfl := List.mem_singleton.mp h
        simp only [Node.program.sizeOf_spec]
        omega
  | content | comment => cases h

/-- What fills a slot of a node is smaller than the node. -/
theorem Node.sizeOf_lt_of_mem_slots {n : Node} {slot : Slot} (h : slot ∈ n.slots) :
    sizeOf slot.node < sizeOf n := by
  cases n with
  | program node =>
      obtain ⟨body, blockParams, chained, loc⟩ := node
      obtain ⟨s, hs, rfl⟩ := List.mem_map.mp h
      have : sizeOf s < sizeOf body := List.sizeOf_lt_of_mem hs
      simp only [Node.program.sizeOf_spec, Node.statement.sizeOf_spec, Program.mk.sizeOf_spec]
      omega
  | statement node =>
      have := Statement.sizeOf_le_of_mem_slots h
      simp only [Node.statement.sizeOf_spec]
      omega
  | expr node =>
      have := Expr.sizeOf_le_of_mem_slots h
      simp only [Node.expr.sizeOf_spec]
      omega
  | hash node =>
      obtain ⟨pairs, loc⟩ := node
      obtain ⟨p, hp, rfl⟩ := List.mem_map.mp h
      have : sizeOf p < sizeOf pairs := List.sizeOf_lt_of_mem hp
      simp only [Node.hash.sizeOf_spec, Node.hashPair.sizeOf_spec, Hash.mk.sizeOf_spec]
      omega
  | hashPair node =>
      obtain ⟨key, value, loc⟩ := node
      obtain rfl := List.mem_singleton.mp h
      simp only [Node.hashPair.sizeOf_spec, Node.expr.sizeOf_spec, HashPair.mk.sizeOf_spec]
      omega

end Stache
