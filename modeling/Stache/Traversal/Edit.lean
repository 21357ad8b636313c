import Stache.Diagnostic
import Stache.Traversal.Basic

/-!
# Editing a tree

An edit asks a rule about each node it meets, and the rule decides: it may set
the text of the node, it lets the edit go into the children or not, and it
keeps the node, removes it or puts another one in its place.  The children are
edited first, so a kept node is kept with what became of them.

A node fills a slot of its parent, and the slot limits the decision.

* The members of a list may be removed.
* A hash and the sections of a block may be removed.
* The root, the head of a call, the value of a named argument and the body of a
  partial must stay.
* Whatever is put into a slot must belong to the slot's family: a statement, an
  expression, a program, a hash or a named argument.

The first decision that breaks one of these ends the edit.
-/

namespace Stache

/-! ## Decisions -/

/-- What becomes of a node. -/
inductive Action where
  /-- It stays. -/
  | keep
  /-- It goes. -/
  | remove
  /-- Another node takes its place as it is. -/
  | replace (node : Node)

/-- What a rule says about a node. -/
structure Decision where
  /-- The new text, for a node that has one. -/
  text : Option Text := none
  /-- The children are edited. -/
  descend : Bool := true
  /-- What becomes of the node after that. -/
  action : Action := .keep

/-- Only a node that stays has its children edited. -/
def Decision.ofAction : Action → Decision
  | .keep => {}
  | action => { descend := false, action := action }

/-- A rule decides on a node by the node and the nodes around it. -/
abbrev Rule := Visit → Decision

/-! ## Broken slots -/

/-- Why an edit cannot go on. -/
inductive EditError where
  /-- A node was removed from a slot that must be filled.  `loc` is the place of
  the node. -/
  | requiredRemoved (field : String) (parent : Kind) (loc : Option Location)
  /-- A node was replaced by one of another family.  `loc` is the place of the
  replaced node. -/
  | wrongFamily (field : String) (parent found : Kind) (loc : Option Location)
deriving DecidableEq, Repr

namespace EditError

/-- The code of an error. -/
def code : EditError → Code
  | .requiredRemoved .. => .requiredRemoved
  | .wrongFamily .. => .unexpectedReplacement

/-- The place of the node that was removed or replaced. -/
def loc? : EditError → Option Location
  | .requiredRemoved _ _ loc => loc
  | .wrongFamily _ _ _ loc => loc

/-- The start of a place, if it is known. -/
def place : Option Location → String
  | some loc => loc.start.display
  | none => "unknown location"

/-- The message of an error. -/
def message : EditError → String
  | .requiredRemoved field parent loc =>
      "Visitor removed `" ++ field ++ "` (" ++ place loc ++ ") from " ++ parent.name ++
        ", but `" ++ field ++ "` is required"
  | .wrongFamily field parent found _ =>
      "Unexpected visitor return value (" ++ found.name ++ ") when accepting " ++ field ++
        " on " ++ parent.name

/-- The text of the label on the removed or replaced node. -/
def label : EditError → String
  | .requiredRemoved .. => "required child removed"
  | .wrongFamily .. => "replaced here"

/-- The report of an error. -/
def diagnostic (e : EditError) : Diagnostic :=
  { code := some e.code
    message := e.message
    labels := (e.loc?.map fun loc => ⟨true, loc, e.label⟩).toList }

end EditError

/-! ## Slots -/

/-- What fills a slot. -/
structure Occupant (α : Type) where
  /-- The node, with its children already edited. -/
  node : α
  /-- The place of the node it was. -/
  loc : Option Location
  action : Action

/-- An edit in progress. -/
abbrev Editing (α : Type) := ExceptT EditError Walk α

namespace Editing

/-- What remains in a slot that may be empty.  `pick` knows the slot's
family. -/
def fillOptional {α : Type} (field : String) (parent : Kind) (pick : Node → Option α)
    (o : Occupant α) : Except EditError (Option α) :=
  match o.action with
  | .keep => .ok (some o.node)
  | .remove => .ok none
  | .replace node =>
      match pick node with
      | some a => .ok (some a)
      | none => .error (.wrongFamily field parent node.kind o.loc)

/-- What remains in a slot that must be filled. -/
def fillRequired {α : Type} (field : String) (parent : Kind) (pick : Node → Option α)
    (o : Occupant α) : Except EditError α :=
  match fillOptional field parent pick o with
  | .ok (some a) => .ok a
  | .ok none => .error (.requiredRemoved field parent o.loc)
  | .error e => .error e

/-- The kind of the node that the edit is in. -/
def parent : Editing Kind := ExceptT.lift (Walk.parentKind <$> Walk.stack)

/-- A slot that may be empty. -/
def optionalSlot {α : Type} (field : String) (pick : Node → Option α)
    (occupant : Editing (Occupant α)) : Editing (Option α) := do
  let kind ← parent
  let o ← occupant
  ExceptT.mk (pure (fillOptional field kind pick o))

/-- A slot that must be filled. -/
def requiredSlot {α : Type} (field : String) (pick : Node → Option α)
    (occupant : Editing (Occupant α)) : Editing α := do
  let kind ← parent
  let o ← occupant
  ExceptT.mk (pure (fillRequired field kind pick o))

/-- A node: the rule decides, and `inside` sets the text and edits the
children. -/
def ask {α : Type} (rule : Rule) (node : Node)
    (inside : Decision → Editing α) : Editing (Occupant α) := do
  let stack ← ExceptT.lift Walk.stack
  let decision := rule ⟨node, stack⟩
  let edited ← ExceptT.mk (Walk.visit node (inside decision).run)
  return ⟨edited, node.loc?, decision.action⟩

/-- The children, if the rule wants them edited. -/
def below {α : Type} (d : Decision) (a : α) (edited : Editing α) : Editing α :=
  if d.descend then edited else pure a

end Editing

/-! ## The edit -/

namespace Edit

open Editing

variable (rule : Rule)

mutual

/-- An expression, edited. -/
def expr : Expr → Editing (Occupant Expr)
  | .path node =>
      ask rule (.expr (.path node)) fun d =>
        pure (.path { node with written := d.text.getD node.written })
  | .sub node =>
      ask rule (.expr (.sub node)) fun d =>
        below d (.sub node) (Expr.sub <$> subExpr node)
  | .string value written loc =>
      ask rule (.expr (.string value written loc)) fun d =>
        pure (.string (d.text.getD value) written loc)
  | .number value written loc =>
      ask rule (.expr (.number value written loc)) fun _ =>
        pure (.number value written loc)
  | .boolean value written loc =>
      ask rule (.expr (.boolean value written loc)) fun _ =>
        pure (.boolean value written loc)
  | .undefined loc => ask rule (.expr (.undefined loc)) fun _ => pure (.undefined loc)
  | .null loc => ask rule (.expr (.null loc)) fun _ => pure (.null loc)
  | .array items loc =>
      ask rule (.expr (.array items loc)) fun d =>
        below d (.array items loc) ((Expr.array · loc) <$> exprs "items" items)
  | .hash pairs loc =>
      ask rule (.expr (.hash pairs loc)) fun d =>
        below d (.hash pairs loc) ((Expr.hash · loc) <$> hashPairs pairs)

/-- The inside of a call in parentheses, edited. -/
def subExpr : SubExpr → Editing SubExpr
  | ⟨inner, written, loc⟩ => return ⟨← call "path" inner, written, loc⟩

/-- A call, edited.  `field` names the slot of its head. -/
def call (field : String) : Call → Editing Call
  | ⟨head, params, arguments⟩ => do
      let head ← requiredSlot field Node.expr? (expr head)
      let params ← exprs "params" params
      let arguments ← hash? arguments
      return ⟨head, params, arguments⟩

/-- The named arguments of a call, edited. -/
def hash? : Option Hash → Editing (Option Hash)
  | none => pure none
  | some h => optionalSlot "hash" Node.hash? (hash h)

/-- A hash, edited. -/
def hash : Hash → Editing (Occupant Hash)
  | ⟨pairs, loc⟩ =>
      ask rule (.hash ⟨pairs, loc⟩) fun d =>
        below d ⟨pairs, loc⟩ (return ⟨← hashPairs pairs, loc⟩)

/-- A named argument, edited. -/
def hashPair : HashPair → Editing (Occupant HashPair)
  | ⟨key, value, loc⟩ =>
      ask rule (.hashPair ⟨key, value, loc⟩) fun d =>
        let key' := d.text.getD key
        below d ⟨key', value, loc⟩
          (return ⟨key', ← requiredSlot "value" Node.expr? (expr value), loc⟩)

/-- The expressions of a list that remain. -/
def exprs (field : String) : List Expr → Editing (List Expr)
  | [] => pure []
  | e :: rest => do
      let first ← optionalSlot field Node.expr? (expr e)
      let rest ← exprs field rest
      return first.toList ++ rest

/-- The named arguments of a list that remain. -/
def hashPairs : List HashPair → Editing (List HashPair)
  | [] => pure []
  | p :: rest => do
      let first ← optionalSlot "pairs" Node.hashPair? (hashPair p)
      let rest ← hashPairs rest
      return first.toList ++ rest

end

/-- A tag that writes a value or a decorator, with its call edited. -/
def mustache (node : Mustache) : Editing Mustache :=
  return { node with call := ← call rule "path" node.call }

/-- A partial with its call edited. -/
def inclusion (node : Inclusion) : Editing Inclusion :=
  return { node with call := ← call rule "name" node.call }

mutual

/-- A statement, edited. -/
def statement : Statement → Editing (Occupant Statement)
  | .mustache node =>
      ask rule (.statement (.mustache node)) fun d =>
        below d (.mustache node) (Statement.mustache <$> mustache rule node)
  | .decorator node =>
      ask rule (.statement (.decorator node)) fun d =>
        below d (.decorator node) (Statement.decorator <$> mustache rule node)
  | .inclusion node =>
      ask rule (.statement (.inclusion node)) fun d =>
        below d (.inclusion node) (Statement.inclusion <$> inclusion rule node)
  | .block node =>
      ask rule (.statement (.block node)) fun d =>
        below d (.block node) (Statement.block <$> block node)
  | .decoratorBlock node =>
      ask rule (.statement (.decoratorBlock node)) fun d =>
        below d (.decoratorBlock node) (Statement.decoratorBlock <$> block node)
  | .inclusionBlock node =>
      ask rule (.statement (.inclusionBlock node)) fun d =>
        below d (.inclusionBlock node) (Statement.inclusionBlock <$> inclusionBlock node)
  | .content node =>
      ask rule (.statement (.content node)) fun d =>
        pure (.content { node with value := d.text.getD node.value })
  | .comment node =>
      ask rule (.statement (.comment node)) fun d =>
        pure (.comment { node with value := d.text.getD node.value })

/-- The inside of a block, edited. -/
def block : Block → Editing Block
  | ⟨inner, main, inverse, opening, middle, closing, loc⟩ => do
      let inner ← call rule "path" inner
      let main ← program? "program" main
      let inverse ← program? "inverse" inverse
      return ⟨inner, main, inverse, opening, middle, closing, loc⟩

/-- The inside of a partial with a body, edited. -/
def inclusionBlock : InclusionBlock → Editing InclusionBlock
  | ⟨inner, main, opening, closing, loc⟩ => do
      let inner ← call rule "name" inner
      let main ← requiredSlot "program" Node.program? (program main)
      return ⟨inner, main, opening, closing, loc⟩

/-- A section of a block, edited. -/
def program? (field : String) : Option Program → Editing (Option Program)
  | none => pure none
  | some p => optionalSlot field Node.program? (program p)

/-- A program, edited. -/
def program : Program → Editing (Occupant Program)
  | ⟨body, blockParams, chained, loc⟩ =>
      ask rule (.program ⟨body, blockParams, chained, loc⟩) fun d =>
        below d ⟨body, blockParams, chained, loc⟩
          (return ⟨← statements body, blockParams, chained, loc⟩)

/-- The statements of a list that remain. -/
def statements : List Statement → Editing (List Statement)
  | [] => pure []
  | s :: rest => do
      let first ← optionalSlot "body" Node.statement? (statement s)
      let rest ← statements rest
      return first.toList ++ rest

end

end Edit

/-- A whole tree, edited.  The root must stay a program. -/
def Program.edit (rule : Rule) (p : Program) : Walked (Except EditError Program) :=
  (Editing.requiredSlot "root" Node.program? (Edit.program rule p)).run.run

end Stache
