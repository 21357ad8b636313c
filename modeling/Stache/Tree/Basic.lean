import Stache.Binary64
import Stache.Source.Position
import Stache.Text

/-!
# The tree of a template

A `Program` is a list of statements.  A statement is text, a comment, or a tag.
Tags that invoke something share the shape of a `Call`: a head, parameters and
a hash of named arguments.  Expressions are what stands inside tags.

Every node has a location.  Only a program may lack one: it takes its location
from its statements, and an empty one has none.
-/

namespace Stache

/-- How a tag treats the text around it.  The first two flags are the `~`
markers that were written.  The other three say where the tag may stand alone
on its line; whitespace control computes them. -/
structure Strip where
  /-- The white space before the tag goes. -/
  before : Bool := false
  /-- The white space after the tag goes. -/
  after : Bool := false
  /-- The opening tag may stand alone. -/
  openStandalone : Bool := false
  /-- The closing tag may stand alone. -/
  closeStandalone : Bool := false
  /-- The whole tag may stand alone. -/
  inlineStandalone : Bool := false
deriving DecidableEq, Repr, Inhabited

/-! ## Expressions -/

mutual

/-- What stands inside a tag. -/
inductive Expr where
  /-- A path such as `a.b` or `../c`. -/
  | path (node : Path)
  /-- A call in parentheses. -/
  | sub (node : SubExpr)
  | string (value written : Text) (loc : Location)
  | number (value : Binary64) (written : Text) (loc : Location)
  /-- `true` or `false`. -/
  | boolean (value : Bool) (written : Text) (loc : Location)
  /-- `undefined`. -/
  | undefined (loc : Location)
  /-- `null`. -/
  | null (loc : Location)
  /-- `[a b c]`, where brackets are read as a list. -/
  | array (items : List Expr) (loc : Location)
  /-- `(key=value ...)`. -/
  | hash (pairs : List HashPair) (loc : Location)

/-- What a path starts from. -/
inductive PathHead where
  /-- A named segment. -/
  | segment (name : Text)
  /-- The result of a call, as in `(call).segment`. -/
  | sub (node : SubExpr)

/-- A reference to a value in scope. -/
structure Path where
  /-- It starts with `@`. -/
  data : Bool
  /-- It is written with the `this.` in front. -/
  fromThis : Bool
  /-- The number of leading `..` segments. -/
  depth : Nat
  /-- What it starts from, if it names anything. -/
  head : Option PathHead
  /-- The segments after the head. -/
  tail : List Text
  /-- The path as written, without brackets. -/
  written : Text
  loc : Location

/-- A call in parentheses. -/
structure SubExpr where
  call : Call
  /-- The source text of the whole group. -/
  written : Text
  loc : Location

/-- What tags that invoke a helper, a partial or a decorator share. -/
structure Call where
  head : Expr
  /-- The positional arguments. -/
  params : List Expr
  /-- The named arguments. -/
  hash : Option Hash

/-- Named arguments, in the order in which they are written. -/
structure Hash where
  pairs : List HashPair
  loc : Location

/-- A named argument. -/
structure HashPair where
  key : Text
  value : Expr
  loc : Location

end

/-! ## Statements -/

/-- `{{head params hash}}`, also the shape of a decorator. -/
structure Mustache where
  call : Call
  /-- The output is escaped: neither `{{{` nor `{{&` was written. -/
  escaped : Bool
  strip : Strip
  loc : Location

/-- `{{> head params hash}}`. -/
structure Inclusion where
  /-- The name of the partial and its arguments. -/
  call : Call
  /-- The padding before a partial that stands alone on its line. -/
  indent : Text
  strip : Strip
  loc : Location

/-- A piece of text between tags. -/
structure Content where
  /-- The text, perhaps trimmed. -/
  value : Text
  /-- The text as written. -/
  written : Text
  /-- White space at its end was removed. -/
  leftStripped : Bool
  /-- White space at its start was removed. -/
  rightStripped : Bool
  loc : Location
deriving DecidableEq, Repr

/-- A piece of text that nothing has trimmed. -/
def Content.untrimmed (text : Text) (loc : Location) : Content := ⟨text, text, false, false, loc⟩

/-- `{{! text }}`. -/
structure Comment where
  /-- The text without the delimiters. -/
  value : Text
  strip : Strip
  loc : Location
deriving DecidableEq, Repr

mutual

/-- A piece of a template. -/
inductive Statement where
  | mustache (node : Mustache)
  /-- A tag with `*` that changes the rendering. -/
  | decorator (node : Mustache)
  | block (node : Block)
  /-- A block with `*`. -/
  | decoratorBlock (node : Block)
  | inclusion (node : Inclusion)
  /-- A partial with a body. -/
  | inclusionBlock (node : InclusionBlock)
  | content (node : Content)
  | comment (node : Comment)

/-- `{{#head}} program {{else}} inverse {{/head}}`. -/
structure Block where
  call : Call
  program : Option Program
  inverse : Option Program
  openStrip : Strip
  inverseStrip : Strip
  closeStrip : Strip
  loc : Location

/-- `{{#> head}} program {{/head}}`. -/
structure InclusionBlock where
  /-- The name of the partial and its arguments. -/
  call : Call
  program : Program
  openStrip : Strip
  closeStrip : Strip
  loc : Location

/-- An ordered list of statements. -/
structure Program where
  body : List Statement
  /-- The names bound by `as |a b|` in the opening tag. -/
  blockParams : Option (List Text)
  /-- The program only wraps the next link of an else chain. -/
  chained : Bool
  loc : Option Location

end

/-! ## Common parts -/

/-- The program without statements. -/
def Program.empty : Program := ⟨[], none, false, none⟩

namespace Expr

/-- The place of an expression. -/
def loc : Expr → Location
  | .path node => node.loc
  | .sub node => node.loc
  | .string _ _ loc | .number _ _ loc | .boolean _ _ loc => loc
  | .undefined loc | .null loc => loc
  | .array _ loc | .hash _ loc => loc

/-- The spelling of an expression, if it has one. -/
def written? : Expr → Option Text
  | .path node => some node.written
  | .sub node => some node.written
  | .string _ written _ | .number _ written _ | .boolean _ written _ => some written
  | .undefined _ => some "undefined".toList
  | .null _ => some "null".toList
  | .array _ _ | .hash _ _ => none

end Expr

/-- The named segments of a path, in order.  A call at the head is not one. -/
def Path.parts (p : Path) : List Text :=
  match p.head with
  | some (.segment name) => name :: p.tail
  | _ => p.tail

/-- The place of a statement. -/
def Statement.loc : Statement → Location
  | .mustache node | .decorator node => node.loc
  | .block node | .decoratorBlock node => node.loc
  | .inclusion node => node.loc
  | .inclusionBlock node => node.loc
  | .content node => node.loc
  | .comment node => node.loc

end Stache
