import Stache.Binary64.Decimal
import Stache.Diagnostic
import Stache.Options
import Stache.Token

/-!
# The builder

The grammar recognises the parts of a node, and the builder makes the node of
them.  It puts the source name into every location and checks what the grammar
cannot see: where `..` and `this` may stand in a path, that a block is closed
under the name it was opened with, and that a decorator block has no else
section.

This module holds the errors, the readings of a token's spelling and the
expressions.  Statements follow in `Stache.Builder.Statement`.
-/

namespace Stache

/-! ## Errors -/

/-- Why the builder refuses a node. -/
inductive BuildError where
  /-- `..`, `.` or `this` follows a named segment.  The text is the path up to
  that place. -/
  | invalidPath (written : Text) (loc : Location)
  /-- A block is closed under another name.  The last place is that of the
  closing tag's name, if it is known. -/
  | mismatchedClose (opened : Text) (openedAt : Location) (closed : Text)
      (closedAt : Option Location)
  /-- A block is opened with something that is not a path. -/
  | openNotPath (openedAt : Location) (closedAt : Option Location)
  /-- A decorator block has an else section. -/
  | inverseOnDecorator (loc : Location)
  /-- An else chain does not go on with a block. -/
  | brokenChain (loc : Location)
deriving DecidableEq, Repr

namespace BuildError

/-- The code of an error. -/
def code : BuildError → Code
  | .invalidPath .. => .invalidPath
  | .mismatchedClose .. => .mismatchedClose
  | .openNotPath .. => .openNotPath
  | .inverseOnDecorator _ => .inverseOnDecorator
  | .brokenChain _ => .brokenChain

/-- The message of an error. -/
def message : BuildError → String
  | .invalidPath written _ => "Invalid path: " ++ written.str
  | .mismatchedClose opened _ closed _ => opened.str ++ " doesn't match " ++ closed.str
  | .openNotPath .. => "Unexpected block open (expected a path)"
  | .inverseOnDecorator _ => "Unexpected inverse block on decorator"
  | .brokenChain _ => "else chain must continue with a block statement"

/-- The diagnostic with the place of the closing tag's name, if it is known. -/
def withClosing (d : Diagnostic) : Option Location → Diagnostic
  | some loc => d.withSecondary loc "closed here"
  | none => d

/-- The report of an error. -/
def diagnostic (e : BuildError) : Diagnostic :=
  match e with
  | .invalidPath _ loc =>
      .error e.code e.message loc "invalid path"
        (some "`..`, `.` and `this` may only start a path")
  | .mismatchedClose opened openedAt _ closedAt =>
      withClosing
        (.error e.code e.message openedAt "block opened here"
          (some ("close the block with `\x7b\x7b/" ++ opened.str ++ "\x7d\x7d`")))
        closedAt
  | .openNotPath openedAt closedAt =>
      withClosing
        (.error e.code e.message openedAt "expected a path"
          (some "blocks must be opened with a helper or property name"))
        closedAt
  | .inverseOnDecorator loc =>
      .error e.code e.message loc "decorator block"
        (some "decorator blocks cannot have an `\x7b\x7belse\x7d\x7d` section")
  | .brokenChain loc => .error e.code e.message loc "chained block" none

end BuildError

/-! ## Reading the spelling of a token -/

/-- The text without a given character at its start. -/
def Text.withoutFirst (c : Char) : Text → Text
  | [] => []
  | d :: r => if d = c then r else d :: r

/-- The text without a given character at its end. -/
def Text.withoutLast (c : Char) (t : Text) : Text := (Text.withoutFirst c t.reverse).reverse

/-- What remains after a prefix, if the text has it. -/
def Text.after? (start t : Text) : Option Text :=
  if start.isPrefixOf t then some (t.drop start.length) else none

/-- What remains before a suffix, if the text has it. -/
def Text.before? (stop t : Text) : Option Text :=
  if stop.isSuffixOf t then some (t.take (t.length - stop.length)) else none

/-- An identifier without its brackets. -/
def unbracket (t : Text) : Text :=
  ((Text.after? ['['] t).bind (Text.before? [']'])).getD t

/-- The markers of a tag: a `~` behind its first two characters and a `~` in
front of its last two. -/
def Strip.ofDelimiters (opener closer : Text) : Strip :=
  { before := opener[2]? == some '~', after := closer.reverse[2]? == some '~' }

/-- The text of a comment: the delimiters go, with a `~` and up to two dashes
at either end. -/
def commentText (t : Text) : Text :=
  let body :=
    ((Text.after? ['{', '{'] t).bind fun r =>
      (Text.after? ['!'] (Text.withoutFirst '~' r)).map fun r =>
        Text.withoutFirst '-' (Text.withoutFirst '-' r)).getD t
  ((Text.before? ['}', '}'] body).map fun r =>
    Text.withoutLast '-' (Text.withoutLast '-' (Text.withoutLast '~' r))).getD body

/-! ## The builder -/

/-- What all nodes of one tree have in common. -/
structure Builder where
  source : Option String := none
  /-- What brackets are. -/
  brackets : BracketSyntax := .segment
  /-- What named arguments in parentheses are. -/
  hashes : HashSyntax := .literal

namespace Builder

/-- The builder for given options. -/
def ofOptions (o : Options) : Builder := ⟨o.sourceName, o.brackets, o.hashes⟩

/-- A place, with the name of the source. -/
def locate (b : Builder) (x : Extent) : Location := ⟨b.source, x.start, x.stop⟩

end Builder

/-! ## Paths -/

/-- A segment of a path, as the grammar finds it. -/
structure Segment where
  /-- The identifier without brackets. -/
  part : Text
  /-- The identifier as written. -/
  written : Text
  /-- What stands before it.  The first segment has nothing before it. -/
  separator : Option Separator
deriving DecidableEq, Repr

namespace Segment

/-- The segment of an identifier. -/
def ofIdent (written : Text) (separator : Option Separator) : Segment :=
  ⟨unbracket written, written, separator⟩

/-- `..`, `.` or `this` without brackets: it moves through the scopes and names
nothing. -/
def isOperator (s : Segment) : Bool :=
  s.written == s.part &&
    (s.part == ['.', '.'] || s.part == ['.'] || s.part == ['t', 'h', 'i', 's'])

/-- The name of the segment.  A private member has `#` in front. -/
def name (s : Segment) : Text :=
  if s.separator = some .member then '#' :: s.part else s.part

/-- The segment as it stands in the path, without brackets. -/
def text (s : Segment) : Text := (s.separator.map Separator.text).getD [] ++ s.part

end Segment

/-- The part of a path that is already read. -/
structure PathPrefix where
  /-- Its text. -/
  written : Text
  /-- Its named segments. -/
  names : List Text
  /-- The number of its `..` segments. -/
  depth : Nat
deriving DecidableEq, Repr

/-- One more segment.  An operator may not follow a name; the error is the text
up to it. -/
def PathPrefix.add (p : PathPrefix) (s : Segment) : Except Text PathPrefix :=
  let written := p.written ++ s.text
  if s.isOperator then
    if p.names.isEmpty then
      .ok ⟨written, p.names, if s.part = ['.', '.'] then p.depth + 1 else p.depth⟩
    else .error written
  else .ok ⟨written, p.names ++ [s.name], p.depth⟩

namespace Builder

/-- A path.  Without a call at the head, the first name is the head. -/
def path (b : Builder) (data : Bool) (head : Option SubExpr) (segments : List Segment)
    (x : Extent) : Except BuildError Path :=
  let loc := b.locate x
  let start : Text :=
    match head, data with
    | some sub, _ => sub.written ++ ['.']
    | none, true => ['@']
    | none, false => []
  match segments.foldlM PathPrefix.add ⟨start, [], 0⟩ with
  | .error written => .error (.invalidPath written loc)
  | .ok p =>
      let (head, tail) :=
        match head, p.names with
        | some sub, names => (some (PathHead.sub sub), names)
        | none, [] => (none, [])
        | none, name :: names => (some (PathHead.segment name), names)
      .ok
        { data := data
          fromThis := ['t', 'h', 'i', 's', '.'].isPrefixOf p.written
          depth := p.depth
          head := head
          tail := tail
          written := p.written
          loc := loc }

/-! ## Other expressions -/

/-- A call in parentheses. -/
def subExpr (b : Builder) (call : Call) (written : Text) (x : Extent) : SubExpr :=
  ⟨call, written, b.locate x⟩

/-- A string. -/
def string (b : Builder) (value : Text) (x : Extent) : Expr := .string value value (b.locate x)

/-- A number.  What cannot be read is not a number. -/
def number (b : Builder) (text : Text) (x : Extent) : Expr :=
  .number (Binary64.read text) text (b.locate x)

/-- A truth value. -/
def boolean (b : Builder) (value : Bool) (x : Extent) : Expr :=
  .boolean value (if value then "true".toList else "false".toList) (b.locate x)

/-- `undefined`. -/
def undefined (b : Builder) (x : Extent) : Expr := .undefined (b.locate x)

/-- `null`. -/
def null (b : Builder) (x : Extent) : Expr := .null (b.locate x)

/-- A list in brackets. -/
def array (b : Builder) (items : List Expr) (x : Extent) : Expr :=
  match b.brackets with
  | .custom build => build items (b.locate x)
  | .segment | .list => .array items (b.locate x)

/-- Named arguments in parentheses. -/
def hashLiteral (b : Builder) (hash : Hash) (x : Extent) : Expr :=
  match b.hashes with
  | .custom build => build hash (b.locate x)
  | .literal => .hash hash.pairs (b.locate x)

end Builder

example : unbracket "[foo bar]".toList = "foo bar".toList := by decide
example : unbracket "[foo".toList = "[foo".toList := by decide
example : commentText ['{', '{', '~', '!', '-', '-', ' ', 'x', ' ', '-', '-', '~', '}', '}']
    = [' ', 'x', ' '] := by decide

end Stache
