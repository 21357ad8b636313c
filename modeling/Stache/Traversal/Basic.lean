import Stache.Tree.Node

/-!
# Traversals

A traversal goes through a tree from the root, a node before its children.  It
keeps a stack of the nodes it is inside of, nearest first, and notes each node
it meets together with that stack.

A `Walk` is a piece of a traversal.  The only way to the stack is `visit`, which
enters a node, runs the walk of its children and leaves the node again, whatever
the result of that walk is.
-/

namespace Stache

/-- A node on the stack. -/
structure Frame where
  kind : Kind
  loc : Option Location
deriving DecidableEq, Repr

/-- The entry of a node on the stack. -/
def Node.frame (n : Node) : Frame := ⟨n.kind, n.loc?⟩

/-- A node that was met. -/
structure Visit where
  node : Node
  /-- The nodes around it, nearest first. -/
  parents : List Frame

/-- The number of nodes on the stack, the visited one included. -/
def Visit.depth (v : Visit) : Nat := v.parents.length + 1

/-- What a piece of a traversal leads to. -/
structure Walked (α : Type) where
  value : α
  /-- The nodes it met, in order. -/
  visits : List Visit
  /-- The stack after it. -/
  stack : List Frame

/-- A piece of a traversal, from the stack it starts with. -/
def Walk (α : Type) : Type := List Frame → Walked α

namespace Walk

/-- No step at all. -/
def done {α : Type} (a : α) : Walk α := fun stack => ⟨a, [], stack⟩

/-- One piece after another. -/
def andThen {α β : Type} (w : Walk α) (next : α → Walk β) : Walk β := fun stack =>
  let first := w stack
  let second := next first.value first.stack
  ⟨second.value, first.visits ++ second.visits, second.stack⟩

instance : Monad Walk where
  pure := done
  bind := andThen

/-- The nodes around what comes next, nearest first. -/
def stack : Walk (List Frame) := fun stack => ⟨stack, [], stack⟩

/-- A node, and the walk of its children. -/
def visit {α : Type} (node : Node) (children : Walk α) : Walk α := fun stack =>
  let inner := children (node.frame :: stack)
  ⟨inner.value, ⟨node, stack⟩ :: inner.visits, inner.stack.tail⟩

/-- The whole traversal. -/
def run {α : Type} (w : Walk α) : Walked α := w []

/-- The kind of the node that the walk is in.  Outside of every node it is that
of a program. -/
def parentKind : List Frame → Kind
  | [] => .program
  | f :: _ => f.kind

theorem bind_apply {α β : Type} (w : Walk α) (next : α → Walk β) (s : List Frame) :
    (w >>= next) s =
      ⟨(next (w s).value (w s).stack).value,
        (w s).visits ++ (next (w s).value (w s).stack).visits,
        (next (w s).value (w s).stack).stack⟩ := rfl

theorem visit_apply {α : Type} (node : Node) (children : Walk α) (s : List Frame) :
    visit node children s =
      ⟨(children (node.frame :: s)).value,
        ⟨node, s⟩ :: (children (node.frame :: s)).visits,
        (children (node.frame :: s)).stack.tail⟩ := rfl

end Walk

end Stache
