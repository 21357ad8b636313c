import Stache.Tree.Node

/-!
# Parts of a node

The parts of a node are all the nodes that it is made of, the call at the head
of a path among them.  What a traversal visits leaves that call out.

The parts that belong to a tag itself come in the order of the source.  The
sections of a block need not: an inverted block has its first section as the
inverse.
-/

namespace Stache

/-- The nodes of a call. -/
def Call.nodes (c : Call) : List Node :=
  .expr c.head :: (c.params.map .expr ++ c.hash.toList.map .hash)

/-- The statements of a program. -/
def Program.nodes (p : Program) : List Node := p.body.map .statement

/-- The call at the head of a path, if there is one. -/
def Path.headNodes (p : Path) : List Node :=
  match p.head with
  | some (.sub node) => [.expr (.sub node)]
  | _ => []

namespace Node

/-- The parts of a node, in the order of the source, without the sections of a block. -/
def ordered : Node → List Node
  | .program p => p.nodes
  | .statement (.mustache node) | .statement (.decorator node) => node.call.nodes
  | .statement (.block node) | .statement (.decoratorBlock node) => node.call.nodes
  | .statement (.inclusion node) => node.call.nodes
  | .statement (.inclusionBlock node) => node.call.nodes
  | .statement (.content _) | .statement (.comment _) => []
  | .expr (.path p) => p.headNodes
  | .expr (.sub node) => node.call.nodes
  | .expr (.array items _) => items.map .expr
  | .expr (.hash pairs _) => pairs.map .hashPair
  | .expr _ => []
  | .hash h => h.pairs.map .hashPair
  | .hashPair p => [.expr p.value]

/-- The sections of a block, the main one first. -/
def sections : Node → List Program
  | .statement (.block node) | .statement (.decoratorBlock node) =>
      node.program.toList ++ node.inverse.toList
  | .statement (.inclusionBlock node) => [node.program]
  | _ => []

/-- The parts of a node. -/
def parts (n : Node) : List Node := n.ordered ++ n.sections.map .program

/-- The parts of a node, with the statements of its sections in place of these. -/
def inside (n : Node) : List Node := n.ordered ++ n.sections.flatMap Program.nodes

/-- A node is another or a part of it, a part of a part, and so on. -/
inductive Within : Node → Node → Prop where
  | refl {n : Node} : Within n n
  | part {n m whole : Node} (hn : n ∈ m.parts) (hm : Within m whole) : Within n whole

end Node

end Stache
