/-!
# Places in a source text

A token knows the bytes it covers, a `Span`.  A node of the tree knows lines
and columns, a `Location`.  Lines count from 1 and columns from 0, in
characters.  A location also carries the name of its source, if the source has
one.  An `Extent` is a location without that name, which is what the grammar
measures and what the builder turns into a location.
-/

namespace Stache

/-- A range of byte offsets. -/
structure Span where
  /-- The offset of the first byte. -/
  start : Nat
  /-- The offset after the last byte. -/
  stop : Nat
deriving DecidableEq, Repr, Inhabited

namespace Span

/-- The number of bytes covered. -/
def length (s : Span) : Nat := s.stop - s.start

/-- No byte is covered. -/
def isEmpty (s : Span) : Bool := s.start == s.stop

/-- The least span that covers both. -/
def union (s t : Span) : Span := ⟨min s.start t.start, max s.stop t.stop⟩

end Span

/-- A line and a column. -/
structure Position where
  /-- The line, from 1. -/
  line : Nat
  /-- The number of characters before it on the line. -/
  column : Nat
deriving DecidableEq, Repr, Inhabited

namespace Position

/-- The start of a text. -/
def origin : Position := ⟨1, 0⟩

/-- The place after a character. -/
def next (p : Position) (c : Char) : Position :=
  if c = '\n' then ⟨p.line + 1, 0⟩ else ⟨p.line, p.column + 1⟩

/-- `line:column`. -/
def display (p : Position) : String := toString p.line ++ ":" ++ toString p.column

end Position

/-- A start and an end. -/
structure Extent where
  start : Position
  stop : Position
deriving DecidableEq, Repr, Inhabited

/-- A start and an end in a source. -/
structure Location where
  source : Option String
  start : Position
  stop : Position
deriving DecidableEq, Repr, Inhabited

namespace Location

/-- From the start of one location to the end of another. -/
def through (a b : Location) : Location := ⟨a.source, a.start, b.stop⟩

/-- `source:line:column` of the start, or `line:column` without a source. -/
def display (l : Location) : String :=
  match l.source with
  | some name => name ++ ":" ++ l.start.display
  | none => l.start.display

end Location

end Stache
