import Stache.Builder.Statement
import Stache.Proofs.Tree.Parts

/-!
# Trees with other places

A function on locations carries over to everything that holds locations: trees,
the errors of the builder and diagnostics.  All else stays.  The parts of a
relocated node are its relocated parts, so relocation reaches every node there
is in a tree (`Node.Within.exists_relocated`).
-/

namespace Stache

section

variable (f : Location → Location)

/-! ## Expressions -/

mutual

/-- The expression with other places. -/
def Expr.relocated : Expr → Expr
  | .path node => .path node.relocated
  | .sub node => .sub node.relocated
  | .string value written loc => .string value written (f loc)
  | .number value written loc => .number value written (f loc)
  | .boolean value written loc => .boolean value written (f loc)
  | .undefined loc => .undefined (f loc)
  | .null loc => .null (f loc)
  | .array items loc => .array (exprsRelocated items) (f loc)
  | .hash pairs loc => .hash (pairsRelocated pairs) (f loc)

/-- The head of a path with other places. -/
def PathHead.relocated : PathHead → PathHead
  | .segment name => .segment name
  | .sub node => .sub node.relocated

/-- The path with other places. -/
def Path.relocated : Path → Path
  | ⟨data, fromThis, depth, head, tail, written, loc⟩ =>
      ⟨data, fromThis, depth, headRelocated head, tail, written, f loc⟩

/-- The head of a path, if there is one, with other places. -/
def headRelocated : Option PathHead → Option PathHead
  | none => none
  | some head => some head.relocated

/-- The call in parentheses with other places. -/
def SubExpr.relocated : SubExpr → SubExpr
  | ⟨call, written, loc⟩ => ⟨call.relocated, written, f loc⟩

/-- The call with other places. -/
def Call.relocated : Call → Call
  | ⟨head, params, hash⟩ => ⟨head.relocated, exprsRelocated params, hashRelocated hash⟩

/-- The hash, if there is one, with other places. -/
def hashRelocated : Option Hash → Option Hash
  | none => none
  | some hash => some hash.relocated

/-- The hash with other places. -/
def Hash.relocated : Hash → Hash
  | ⟨pairs, loc⟩ => ⟨pairsRelocated pairs, f loc⟩

/-- The pair with other places. -/
def HashPair.relocated : HashPair → HashPair
  | ⟨key, value, loc⟩ => ⟨key, value.relocated, f loc⟩

/-- The expressions with other places. -/
def exprsRelocated : List Expr → List Expr
  | [] => []
  | e :: more => e.relocated :: exprsRelocated more

/-- The pairs with other places. -/
def pairsRelocated : List HashPair → List HashPair
  | [] => []
  | pair :: more => pair.relocated :: pairsRelocated more

end

/-! ## Statements -/

mutual

/-- The statement with other places. -/
def Statement.relocated : Statement → Statement
  | .mustache ⟨call, escaped, strip, loc⟩ => .mustache ⟨call.relocated f, escaped, strip, f loc⟩
  | .decorator ⟨call, escaped, strip, loc⟩ => .decorator ⟨call.relocated f, escaped, strip, f loc⟩
  | .block node => .block node.relocated
  | .decoratorBlock node => .decoratorBlock node.relocated
  | .inclusion ⟨call, indent, strip, loc⟩ => .inclusion ⟨call.relocated f, indent, strip, f loc⟩
  | .inclusionBlock node => .inclusionBlock node.relocated
  | .content ⟨value, written, left, right, loc⟩ => .content ⟨value, written, left, right, f loc⟩
  | .comment ⟨value, strip, loc⟩ => .comment ⟨value, strip, f loc⟩

/-- The block with other places. -/
def Block.relocated : Block → Block
  | ⟨call, main, inverse, opening, middle, closing, loc⟩ =>
      ⟨call.relocated f, Section.relocated main, Section.relocated inverse, opening, middle,
        closing, f loc⟩

/-- The partial with a body, with other places. -/
def InclusionBlock.relocated : InclusionBlock → InclusionBlock
  | ⟨call, main, opening, closing, loc⟩ =>
      ⟨call.relocated f, main.relocated, opening, closing, f loc⟩

/-- The statements with other places. -/
def Body.relocated : List Statement → List Statement
  | [] => []
  | s :: rest => s.relocated :: Body.relocated rest

/-- The section, if it is there, with other places. -/
def Section.relocated : Option Program → Option Program
  | none => none
  | some p => some p.relocated

/-- The program with other places. -/
def Program.relocated : Program → Program
  | ⟨body, names, chained, loc⟩ => ⟨Body.relocated body, names, chained, loc.map f⟩

end

/-- The node with other places. -/
def Node.relocated : Node → Node
  | .program node => .program (node.relocated f)
  | .statement node => .statement (node.relocated f)
  | .expr node => .expr (node.relocated f)
  | .hash node => .hash (node.relocated f)
  | .hashPair node => .hashPair (node.relocated f)

/-! ## Reports -/

/-- The label in another place. -/
def Label.relocated (l : Label) : Label := { l with loc := f l.loc }

/-- The diagnostic with other places. -/
def Diagnostic.relocated (d : Diagnostic) : Diagnostic :=
  { d with labels := d.labels.map (Label.relocated f) }

/-- The failure with other places. -/
def ParseFailure.relocated (e : ParseFailure) : ParseFailure :=
  ⟨e.diagnostics.map (Diagnostic.relocated f)⟩

/-- The error of the builder with other places. -/
def BuildError.relocated : BuildError → BuildError
  | .invalidPath written loc => .invalidPath written (f loc)
  | .mismatchedClose opened openedAt closed closedAt =>
      .mismatchedClose opened (f openedAt) closed (closedAt.map f)
  | .openNotPath openedAt closedAt => .openNotPath (f openedAt) (closedAt.map f)
  | .inverseOnDecorator loc => .inverseOnDecorator (f loc)
  | .brokenChain loc => .brokenChain (f loc)

/-- The diagnostic of a relocated refusal is its relocated diagnostic. -/
theorem BuildError.diagnostic_relocated (e : BuildError) :
    (e.relocated f).diagnostic = e.diagnostic.relocated f := by
  cases e with
  | mismatchedClose _ _ _ closedAt => cases closedAt <;> rfl
  | openNotPath _ closedAt => cases closedAt <;> rfl
  | _ => rfl

/-! ## Lists and places -/

/-- Arguments are relocated one by one. -/
theorem exprsRelocated_eq_map (es : List Expr) :
    exprsRelocated f es = es.map (Expr.relocated f) := by
  induction es with
  | nil => rfl
  | cons e es ih => rw [exprsRelocated, ih, List.map_cons]

/-- Pairs are relocated one by one. -/
theorem pairsRelocated_eq_map (pairs : List HashPair) :
    pairsRelocated f pairs = pairs.map (HashPair.relocated f) := by
  induction pairs with
  | nil => rfl
  | cons pair pairs ih => rw [pairsRelocated, ih, List.map_cons]

theorem hashRelocated_eq_map (h : Option Hash) : hashRelocated f h = h.map (Hash.relocated f) := by
  cases h <;> rfl

/-- Statements are relocated one by one. -/
theorem Body.relocated_eq_map (body : List Statement) :
    Body.relocated f body = body.map (Statement.relocated f) := by
  induction body with
  | nil => rfl
  | cons s body ih => rw [Body.relocated, ih, List.map_cons]

/-- A section is relocated if it is there. -/
theorem Section.relocated_eq_map (p : Option Program) :
    Section.relocated f p = p.map (Program.relocated f) := by
  cases p <;> rfl

/-- The place of a relocated expression is the image of its place. -/
theorem Expr.loc_relocated (e : Expr) : (e.relocated f).loc = f e.loc := by
  cases e with
  | path node | sub node => cases node; rfl
  | _ => rfl

/-- Relocation keeps the spelling of an expression. -/
theorem Expr.written?_relocated (e : Expr) : (e.relocated f).written? = e.written? := by
  cases e with
  | path node | sub node => cases node; rfl
  | _ => rfl

/-- The place of a relocated statement is the image of its place. -/
theorem Statement.loc_relocated (s : Statement) : (s.relocated f).loc = f s.loc := by
  cases s with
  | _ node => cases node; rfl

theorem Program.body_relocated (p : Program) :
    (p.relocated f).body = Body.relocated f p.body := by
  cases p
  rfl

/-- The place of a relocated node is the image of its place. -/
theorem Node.loc?_relocated (n : Node) : (n.relocated f).loc? = n.loc?.map f := by
  cases n with
  | program node => cases node; rfl
  | statement node => exact congrArg some (node.loc_relocated f)
  | expr node => exact congrArg some (node.loc_relocated f)
  | hash node | hashPair node => cases node; rfl

/-! ## Parts -/

/-- The parts of a relocated call are its relocated parts. -/
theorem Call.nodes_relocated (c : Call) :
    (c.relocated f).nodes = c.nodes.map (Node.relocated f) := by
  obtain ⟨head, params, hash⟩ := c
  rw [Call.relocated, Call.nodes, Call.nodes, exprsRelocated_eq_map, hashRelocated_eq_map,
    List.map_cons, List.map_append, List.map_map, List.map_map]
  cases hash <;> rfl

/-- The statements of a relocated program are its relocated statements. -/
theorem Program.nodes_relocated (p : Program) :
    (p.relocated f).nodes = p.nodes.map (Node.relocated f) := by
  obtain ⟨body, names, chained, loc⟩ := p
  rw [Program.relocated, Program.nodes, Program.nodes, Body.relocated_eq_map, List.map_map,
    List.map_map]
  rfl

/-- A call at the head of a path is relocated with the path. -/
theorem Path.headNodes_relocated (p : Path) :
    (p.relocated f).headNodes = p.headNodes.map (Node.relocated f) := by
  obtain ⟨data, fromThis, depth, head, tail, written, loc⟩ := p
  cases head with
  | none => rfl
  | some head => cases head <;> rfl

/-- The parts of an expression come in the same order at any place. -/
theorem Expr.ordered_relocated (e : Expr) :
    (Node.expr (e.relocated f)).ordered = (Node.expr e).ordered.map (Node.relocated f) := by
  cases e with
  | path node => exact node.headNodes_relocated f
  | sub node =>
      obtain ⟨call, written, loc⟩ := node
      exact call.nodes_relocated f
  | array items loc =>
      show (exprsRelocated f items).map Node.expr = (items.map Node.expr).map _
      rw [exprsRelocated_eq_map, List.map_map, List.map_map]
      rfl
  | hash pairs loc =>
      show (pairsRelocated f pairs).map Node.hashPair = (pairs.map Node.hashPair).map _
      rw [pairsRelocated_eq_map, List.map_map, List.map_map]
      rfl
  | string | number | boolean | undefined | null => rfl

/-- The parts of a node come in the same order at any place. -/
theorem Node.ordered_relocated (n : Node) :
    (n.relocated f).ordered = n.ordered.map (Node.relocated f) := by
  cases n with
  | program node => exact node.nodes_relocated f
  | statement node =>
      cases node with
      | mustache node | decorator node | inclusion node | block node | decoratorBlock node
      | inclusionBlock node =>
          cases node
          exact Call.nodes_relocated f _
      | content node | comment node => cases node; rfl
  | expr node => exact node.ordered_relocated f
  | hash node =>
      obtain ⟨pairs, loc⟩ := node
      show (pairsRelocated f pairs).map Node.hashPair = (pairs.map Node.hashPair).map _
      rw [pairsRelocated_eq_map, List.map_map, List.map_map]
      rfl
  | hashPair node => cases node; rfl

/-- The sections of a relocated node are its relocated sections. -/
theorem Node.sections_relocated (n : Node) :
    (n.relocated f).sections = n.sections.map (Program.relocated f) := by
  cases n with
  | statement node =>
      cases node with
      | block node | decoratorBlock node =>
          obtain ⟨call, main, inverse, opening, middle, closing, loc⟩ := node
          cases main <;> cases inverse <;> rfl
      | _ node => cases node; rfl
  | expr node => cases node <;> rfl
  | _ => rfl

/-- **The parts of a relocated node are its relocated parts.** -/
theorem Node.parts_relocated (n : Node) :
    (n.relocated f).parts = n.parts.map (Node.relocated f) := by
  rw [Node.parts, Node.parts, Node.ordered_relocated, Node.sections_relocated, List.map_append,
    List.map_map, List.map_map]
  rfl

/-- A node in a relocated tree is a relocated node. -/
theorem Node.Within.exists_relocated {n whole : Node} (h : n.Within (whole.relocated f)) :
    ∃ m : Node, m.Within whole ∧ n = m.relocated f := by
  generalize hroot : whole.relocated f = root at h
  induction h with
  | refl => exact ⟨whole, .refl, hroot.symm⟩
  | part hn _ ih =>
      obtain ⟨m, hm, rfl⟩ := ih hroot
      rw [Node.parts_relocated] at hn
      obtain ⟨l, hl, rfl⟩ := List.mem_map.mp hn
      exact ⟨l, .part hl hm, rfl⟩

end

/-! ## Places that stay -/

mutual

/-- An expression whose places stay is the same. -/
theorem Expr.relocated_id : ∀ e : Expr, e.relocated id = e
  | .path node => congrArg Expr.path node.relocated_id
  | .sub node => congrArg Expr.sub node.relocated_id
  | .string _ _ _ | .number _ _ _ | .boolean _ _ _ | .undefined _ | .null _ => rfl
  | .array items loc => congrArg (Expr.array · loc) (exprsRelocated_id items)
  | .hash pairs loc => congrArg (Expr.hash · loc) (pairsRelocated_id pairs)

theorem PathHead.relocated_id : ∀ head : PathHead, head.relocated id = head
  | .segment _ => rfl
  | .sub node => congrArg PathHead.sub node.relocated_id

/-- A path whose places stay is the same. -/
theorem Path.relocated_id : ∀ p : Path, p.relocated id = p
  | ⟨data, fromThis, depth, head, tail, written, loc⟩ =>
      congrArg (Path.mk data fromThis depth · tail written loc) (headRelocated_id head)

theorem headRelocated_id : ∀ head : Option PathHead, headRelocated id head = head
  | none => rfl
  | some head => congrArg some head.relocated_id

theorem SubExpr.relocated_id : ∀ sub : SubExpr, sub.relocated id = sub
  | ⟨call, written, loc⟩ => congrArg (SubExpr.mk · written loc) call.relocated_id

/-- A call whose places stay is the same. -/
theorem Call.relocated_id : ∀ c : Call, c.relocated id = c
  | ⟨head, params, hash⟩ => by
      rw [Call.relocated, head.relocated_id, exprsRelocated_id params, hashRelocated_id hash]

theorem hashRelocated_id : ∀ hash : Option Hash, hashRelocated id hash = hash
  | none => rfl
  | some hash => congrArg some hash.relocated_id

/-- A hash whose places stay is the same. -/
theorem Hash.relocated_id : ∀ h : Hash, h.relocated id = h
  | ⟨pairs, loc⟩ => congrArg (Hash.mk · loc) (pairsRelocated_id pairs)

theorem HashPair.relocated_id : ∀ pair : HashPair, pair.relocated id = pair
  | ⟨key, value, loc⟩ => congrArg (HashPair.mk key · loc) value.relocated_id

theorem exprsRelocated_id : ∀ es : List Expr, exprsRelocated id es = es
  | [] => rfl
  | e :: es => by rw [exprsRelocated, e.relocated_id, exprsRelocated_id es]

theorem pairsRelocated_id : ∀ pairs : List HashPair, pairsRelocated id pairs = pairs
  | [] => rfl
  | pair :: pairs => by rw [pairsRelocated, pair.relocated_id, pairsRelocated_id pairs]

end

mutual

/-- A statement whose places stay is the same. -/
theorem Statement.relocated_id : ∀ s : Statement, s.relocated id = s
  | .mustache ⟨call, escaped, strip, loc⟩ =>
      congrArg (fun c => Statement.mustache ⟨c, escaped, strip, loc⟩) call.relocated_id
  | .decorator ⟨call, escaped, strip, loc⟩ =>
      congrArg (fun c => Statement.decorator ⟨c, escaped, strip, loc⟩) call.relocated_id
  | .block node => congrArg Statement.block node.relocated_id
  | .decoratorBlock node => congrArg Statement.decoratorBlock node.relocated_id
  | .inclusion ⟨call, indent, strip, loc⟩ =>
      congrArg (fun c => Statement.inclusion ⟨c, indent, strip, loc⟩) call.relocated_id
  | .inclusionBlock node => congrArg Statement.inclusionBlock node.relocated_id
  | .content ⟨_, _, _, _, _⟩ | .comment ⟨_, _, _⟩ => rfl

/-- A block whose places stay is the same. -/
theorem Block.relocated_id : ∀ node : Block, node.relocated id = node
  | ⟨call, main, inverse, opening, middle, closing, loc⟩ => by
      rw [Block.relocated, call.relocated_id, Section.relocated_id main,
        Section.relocated_id inverse, id]

theorem InclusionBlock.relocated_id : ∀ node : InclusionBlock, node.relocated id = node
  | ⟨call, main, opening, closing, loc⟩ => by
      rw [InclusionBlock.relocated, call.relocated_id, main.relocated_id, id]

theorem Body.relocated_id : ∀ body : List Statement, Body.relocated id body = body
  | [] => rfl
  | s :: body => by rw [Body.relocated, s.relocated_id, Body.relocated_id body]

theorem Section.relocated_id : ∀ p : Option Program, Section.relocated id p = p
  | none => rfl
  | some p => congrArg some p.relocated_id

/-- A tree whose places stay is the same. -/
theorem Program.relocated_id : ∀ p : Program, p.relocated id = p
  | ⟨body, names, chained, loc⟩ => by
      rw [Program.relocated, Body.relocated_id body, Option.map_id, id]

end

/-- A failure whose places stay is the same. -/
theorem ParseFailure.relocated_id (e : ParseFailure) : e.relocated id = e := by
  have hlabel : Label.relocated id = id := rfl
  have hdiagnostic : Diagnostic.relocated id = id := by
    funext d
    rw [Diagnostic.relocated, hlabel, List.map_id, id]
  rw [relocated, hdiagnostic, List.map_id]

end Stache
