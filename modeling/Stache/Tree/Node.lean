import Stache.Tree.Basic

/-!
# Kinds of nodes

Traversals meet nodes of five families: programs, statements, expressions,
hashes and their pairs.  A `Node` is any one of them, and its `Kind` is the
exact shape.
-/

namespace Stache

/-- The shape of a node. -/
inductive Kind where
  | program
  | mustache
  | decorator
  | block
  | decoratorBlock
  | inclusion
  | inclusionBlock
  | content
  | comment
  | path
  | sub
  | string
  | number
  | boolean
  | undefined
  | null
  | array
  | hashLiteral
  | hash
  | hashPair
deriving DecidableEq, Repr, Inhabited

namespace Kind

/-- Every kind, in order. -/
def all : List Kind :=
  [.program, .mustache, .decorator, .block, .decoratorBlock, .inclusion, .inclusionBlock,
    .content, .comment, .path, .sub, .string, .number, .boolean, .undefined, .null, .array,
    .hashLiteral, .hash, .hashPair]

/-- The name of a kind in messages. -/
def name : Kind → String
  | .program => "Program"
  | .mustache => "MustacheStatement"
  | .decorator => "Decorator"
  | .block => "BlockStatement"
  | .decoratorBlock => "DecoratorBlock"
  | .inclusion => "PartialStatement"
  | .inclusionBlock => "PartialBlockStatement"
  | .content => "ContentStatement"
  | .comment => "CommentStatement"
  | .path => "PathExpression"
  | .sub => "SubExpression"
  | .string => "StringLiteral"
  | .number => "NumberLiteral"
  | .boolean => "BooleanLiteral"
  | .undefined => "UndefinedLiteral"
  | .null => "NullLiteral"
  | .array => "ArrayLiteral"
  | .hashLiteral => "HashLiteral"
  | .hash => "Hash"
  | .hashPair => "HashPair"

/-- The kind with a given name. -/
def ofName? (name : String) : Option Kind := all.find? fun k => k.name == name

end Kind

/-- The kind of an expression. -/
def Expr.kind : Expr → Kind
  | .path _ => .path
  | .sub _ => .sub
  | .string .. => .string
  | .number .. => .number
  | .boolean .. => .boolean
  | .undefined _ => .undefined
  | .null _ => .null
  | .array .. => .array
  | .hash .. => .hashLiteral

/-- The kind of a statement. -/
def Statement.kind : Statement → Kind
  | .mustache _ => .mustache
  | .decorator _ => .decorator
  | .block _ => .block
  | .decoratorBlock _ => .decoratorBlock
  | .inclusion _ => .inclusion
  | .inclusionBlock _ => .inclusionBlock
  | .content _ => .content
  | .comment _ => .comment

/-- A node of any family. -/
inductive Node where
  | program (node : Program)
  | statement (node : Statement)
  | expr (node : Expr)
  | hash (node : Hash)
  | hashPair (node : HashPair)

namespace Node

/-- The kind of a node. -/
def kind : Node → Kind
  | .program _ => .program
  | .statement node => node.kind
  | .expr node => node.kind
  | .hash _ => .hash
  | .hashPair _ => .hashPair

/-- The place of a node. -/
def loc? : Node → Option Location
  | .program node => node.loc
  | .statement node => some node.loc
  | .expr node => some node.loc
  | .hash node => some node.loc
  | .hashPair node => some node.loc

/-- The node as a program. -/
def program? : Node → Option Program
  | .program node => some node
  | _ => none

/-- The node as a statement. -/
def statement? : Node → Option Statement
  | .statement node => some node
  | _ => none

/-- The node as an expression. -/
def expr? : Node → Option Expr
  | .expr node => some node
  | _ => none

/-- The node as a hash. -/
def hash? : Node → Option Hash
  | .hash node => some node
  | _ => none

/-- The node as a pair of a hash. -/
def hashPair? : Node → Option HashPair
  | .hashPair node => some node
  | _ => none

end Node

end Stache
