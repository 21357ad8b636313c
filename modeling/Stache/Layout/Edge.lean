import Stache.Tree.Basic

/-!
# The ends of a text

Whitespace control removes white space from the ends of the text around a tag.
A `~` removes all of it.  A tag alone on its line removes the padding in front
of it, and behind it the padding with one line break.  The second kind of trim
happens at most once at each end of a text, and a text remembers it.

Whether a tag is alone on its line is read off the texts as they were written,
so no trim has an influence on it.
-/

namespace Stache

/-! ## Trims of one text -/

namespace Content

/-- The text with a new value that lacks something at the start. -/
def withStart (c : Content) (value : Text) : Content :=
  { c with value := value, rightStripped := c.rightStripped || value.length != c.value.length }

/-- The text with a new value that lacks something at the end. -/
def withEnd (c : Content) (value : Text) : Content :=
  { c with value := value, leftStripped := c.leftStripped || value.length != c.value.length }

/-- All white space at the start removed. -/
def trimStart (c : Content) : Content := c.withStart c.value.trimStart

/-- One line of padding at the start removed, unless something was removed
there before. -/
def trimLine (c : Content) : Content :=
  if c.rightStripped then c else c.withStart c.value.trimLine

/-- All white space at the end removed. -/
def trimEnd (c : Content) : Content := c.withEnd c.value.trimEnd

/-- The padding at the end removed, unless something was removed there
before. -/
def trimPadding (c : Content) : Content :=
  if c.leftStripped then c else c.withEnd c.value.trimPadding

end Content

/-! ## The ends of a list of statements -/

namespace Layout

/-- A change of the first statement, if it is text. -/
def onFirst (f : Content → Content) : List Statement → List Statement
  | .content c :: rest => .content (f c) :: rest
  | body => body

/-- A change of the last statement, if it is text. -/
def onLast (f : Content → Content) : List Statement → List Statement
  | [] => []
  | [.content c] => [.content (f c)]
  | [s] => [s]
  | s :: t :: rest => s :: onLast f (t :: rest)
termination_by structural body => body

theorem onLast_cons_cons (f : Content → Content) (s t : Statement) (rest : List Statement) :
    onLast f (s :: t :: rest) = s :: onLast f (t :: rest) := by
  cases s <;> rfl

/-! ## Lines -/

/-- The line ends before a tag.  `before` are the statements before it, the
nearest first.  At the root of the template the text may also start there: with
nothing before the tag, or with one text that is all white space. -/
def lineEnds (root : Bool) (before : List Statement) : Bool :=
  match before with
  | [] => root
  | .content c :: more =>
      c.written.endsLine || (root && more.isEmpty && c.written.allSpace)
  | _ => false

/-- A line starts after a tag.  `after` are the statements after it.  At the
root of the template the text may also end there. -/
def lineStarts (root : Bool) (after : List Statement) : Bool :=
  match after with
  | [] => root
  | .content c :: more =>
      c.written.startsLine || (root && more.isEmpty && c.written.allSpace)
  | _ => false

/-! ## Else chains -/

/-- The statements of the first section behind an else tag.  In a chain they
are the main section of its first link. -/
def firstSection? (p : Program) : Option (List Statement) :=
  if p.chained then
    match p.body with
    | .block b :: _ | .decoratorBlock b :: _ => b.program.map Program.body
    | _ => none
  else some p.body

/-- A change of the statements of a program. -/
def onBody (f : List Statement → List Statement) (p : Program) : Program :=
  { p with body := f p.body }

/-- A change of the first section behind an else tag. -/
def onFirstSection (f : List Statement → List Statement) (p : Program) : Program :=
  if p.chained then
    match p.body with
    | .block b :: rest =>
        { p with body := .block { b with program := b.program.map (onBody f) } :: rest }
    | .decoratorBlock b :: rest =>
        { p with body := .decoratorBlock { b with program := b.program.map (onBody f) } :: rest }
    | _ => p
  else onBody f p

mutual

/-- A change of the section that the main sections of a chain lead to, from
the last block of each program to its main section. -/
def onLastSection (f : List Statement → List Statement) : Program → Program
  | ⟨body, blockParams, chained, loc⟩ =>
      ⟨if chained then onLastBlock f body else f body, blockParams, chained, loc⟩

/-- The same in the last statement of a list, if that is a block. -/
def onLastBlock (f : List Statement → List Statement) : List Statement → List Statement
  | [] => []
  | [s] => [onBlockSection f s]
  | s :: t :: rest => s :: onLastBlock f (t :: rest)

/-- The same in one statement, if it is a block. -/
def onBlockSection (f : List Statement → List Statement) : Statement → Statement
  | .block ⟨call, program, inverse, opening, middle, closing, loc⟩ =>
      .block ⟨call, onSection f program, inverse, opening, middle, closing, loc⟩
  | .decoratorBlock ⟨call, program, inverse, opening, middle, closing, loc⟩ =>
      .decoratorBlock ⟨call, onSection f program, inverse, opening, middle, closing, loc⟩
  | s => s

/-- The same in the main section of a block, if it has one. -/
def onSection (f : List Statement → List Statement) : Option Program → Option Program
  | none => none
  | some p => some (onLastSection f p)

end

end Layout
end Stache
