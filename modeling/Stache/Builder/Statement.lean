import Stache.Builder.Basic

/-!
# Building statements

A block is built from the parts of its tags: the opening, the closing and, for
an else section, the markers of its tag.  The next link of an else chain is a
block of its own.  It stands alone in a chained program and takes its closing
markers from the block around it.
-/

namespace Stache

/-- The opening tag of a block, of a link of an else chain, or of a partial
with a body. -/
structure BlockOpening where
  /-- The spelling of the delimiter. -/
  opener : Text
  call : Call
  /-- The names of `as |a b|`. -/
  blockParams : Option (List Text)
  strip : Strip

/-- The closing tag of a block.  A link of an else chain has none: what stands
in for it carries markers only. -/
structure BlockClosing where
  path : Option Expr
  strip : Strip

/-- The else section of a block. -/
structure ElseSection where
  strip : Strip
  program : Program
  /-- The section is the next link of a chain. -/
  chained : Bool

namespace Builder

/-! ## Leaves and plain tags -/

/-- Text. -/
def content (b : Builder) (text : Text) (x : Extent) : Statement :=
  .content (.untrimmed text (b.locate x))

/-- A comment. -/
def comment (b : Builder) (text : Text) (x : Extent) : Statement :=
  .comment ⟨commentText text, .ofDelimiters text text, b.locate x⟩

/-- The modifier of an opening delimiter: the character behind a `~`, or the
third one. -/
def modifier? (opener : Text) : Option Char := opener[3]?.or opener[2]?

/-- A tag that writes a value, or a decorator if the delimiter has a `*`. -/
def mustache (b : Builder) (opener : Text) (call : Call) (strip : Strip) (x : Extent) :
    Statement :=
  let escaped := modifier? opener != some '{' && modifier? opener != some '&'
  let node : Mustache := ⟨call, escaped, strip, b.locate x⟩
  if opener.contains '*' then .decorator node else .mustache node

/-- A partial. -/
def inclusion (b : Builder) (call : Call) (strip : Strip) (x : Extent) : Statement :=
  .inclusion ⟨call, [], strip, b.locate x⟩

/-! ## Programs -/

/-- A program.  Without a place of its own it spans its statements. -/
def program (body : List Statement) (loc : Option Location) : Program :=
  let spanned :=
    match body with
    | [] => none
    | [only] => some only.loc
    | first :: second :: rest => some (first.loc.through ((second :: rest).getLast (by simp)).loc)
  ⟨body, none, false, loc.or spanned⟩

/-- The program that holds the next link of an else chain. -/
def chainedProgram (block : Statement) (loc : Option Location) : Program :=
  { program [block] loc with chained := true }

/-! ## Blocks -/

/-- The name in a closing tag must be the path that opened the block. -/
def checkClose (opened : Expr) (closed : Option Text) (closedAt : Option Location) :
    Except BuildError Unit :=
  match opened with
  | .path p =>
      let closed := closed.getD "undefined".toList
      if p.written = closed then .ok ()
      else .error (.mismatchedClose p.written p.loc closed closedAt)
  | other => .error (.openNotPath other.loc closedAt)

/-- A raw block.  Its body is kept as it is. -/
def rawBlock (b : Builder) (call : Call) (body : List Statement) (close : Text) (x : Extent) :
    Except BuildError Statement := do
  checkClose call.head (some close) none
  let loc := b.locate x
  return .block
    { call := call
      program := some ⟨body, none, false, some loc⟩
      inverse := none
      openStrip := {}
      inverseStrip := {}
      closeStrip := {}
      loc := loc }

/-- The next link of a chain closes with the markers of the block around it. -/
def closeChain (program : Program) (closeStrip : Strip) : Option Program :=
  match program.body with
  | .block first :: rest =>
      some { program with body := .block { first with closeStrip := closeStrip } :: rest }
  | _ => none

/-- The else section of a block: its program, with the closing markers of the
block handed on if it is a chain. -/
def inverseProgram (decorator : Bool) (closeStrip : Strip) (loc : Location)
    (section? : Option ElseSection) : Except BuildError (Option Program) :=
  match section? with
  | none => .ok none
  | some s =>
      if decorator then .error (.inverseOnDecorator loc)
      else if s.chained then
        match closeChain s.program closeStrip with
        | some program => .ok (some program)
        | none => .error (.brokenChain loc)
      else .ok (some s.program)

/-- A block.  An inverted block has its first section as the inverse and its
else section as the program. -/
def block (b : Builder) (opening : BlockOpening) (program : Program)
    (section? : Option ElseSection) (closing : Option BlockClosing) (inverted : Bool)
    (x : Extent) : Except BuildError Statement := do
  let loc := b.locate x
  match closing.bind BlockClosing.path with
  | some name => checkClose opening.call.head name.written? (some name.loc)
  | none => pure ()
  let decorator := opening.opener.contains '*'
  let closeStrip := (closing.map BlockClosing.strip).getD {}
  let main := { program with blockParams := opening.blockParams }
  let other ← inverseProgram decorator closeStrip loc section?
  let node : Block :=
    { call := opening.call
      program := if inverted then other else some main
      inverse := if inverted then some main else other
      openStrip := opening.strip
      inverseStrip := (section?.map ElseSection.strip).getD {}
      closeStrip := closeStrip
      loc := loc }
  return if decorator then .decoratorBlock node else .block node

/-- A partial with a body. -/
def inclusionBlock (b : Builder) (opening : BlockOpening) (program : Program)
    (closing : BlockClosing) (x : Extent) : Except BuildError Statement := do
  checkClose opening.call.head (closing.path.bind Expr.written?) none
  return .inclusionBlock
    { call := opening.call
      program := program
      openStrip := opening.strip
      closeStrip := closing.strip
      loc := b.locate x }

end Builder

end Stache
