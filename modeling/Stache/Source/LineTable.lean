import Stache.Source.Lines

/-!
# Line tables

A text that is asked for many places keeps the offsets at which its lines start, in a
table.  A place is looked up there: bisection finds the line of an offset, and only the
characters of that line are counted.

`LineTable.position` and `LineTable.offset` are `Source.position` and `Source.offset`
for a text that has a table.
-/

namespace Stache

/-! ## Tables in ascending order -/

namespace Ascending

/-- The last of `size` entries from `base` on that is at most `x`.  If there is none it
is the first of them. -/
def bisect (xs : Array Nat) (x base size : Nat) (h : base + size ≤ xs.size) : Nat :=
  if hsize : 2 ≤ size then
    have hmiddle : base + size / 2 < xs.size := by omega
    if x < xs[base + size / 2] then bisect xs x base (size - size / 2) (by omega)
    else bisect xs x (base + size / 2) (size - size / 2) (by omega)
  else base
termination_by size

/-- The index of `x`, or the index where it would have to be put in. -/
def search (xs : Array Nat) (x : Nat) : Except Nat Nat :=
  let i := bisect xs x 0 xs.size (Nat.le_of_eq (Nat.zero_add _))
  match xs[i]? with
  | none => .error 0
  | some y => if y = x then .ok i else .error (if y < x then i + 1 else i)

end Ascending

/-! ## The lines of a text -/

/-- A text and the offsets at which its lines start. -/
structure LineTable where
  text : Text
  /-- One offset for each line, in ascending order. -/
  starts : Array Nat
deriving Repr

namespace LineTable

/-- The offsets behind the line feeds of a text that starts at `offset`. -/
def feeds (offset : Nat) : Text → List Nat
  | [] => []
  | c :: r =>
      let next := offset + c.utf8Size
      if c = '\n' then next :: feeds next r else feeds next r
termination_by structural t => t

/-- The table of a text. -/
def ofText (t : Text) : LineTable := ⟨t, (0 :: feeds 0 t).toArray⟩

variable (table : LineTable)

/-- The line that holds an offset, from 0. -/
def lineOf (offset : Nat) : Nat :=
  match Ascending.search table.starts offset with
  | .ok line => line
  | .error next => next - 1

/-- The line and column of a byte offset.  An offset past the end stands for the end. -/
def position (offset : Nat) : Position :=
  let offset := min offset table.text.byteLength
  let line := table.lineOf offset
  ⟨line + 1, (table.text.slice (table.starts.getD line 0) offset).length⟩

/-- The byte offset of a line and column, if the text has that line and the line has
that many characters. -/
def offset (p : Position) : Option Nat :=
  if p.line = 0 then none
  else
    match table.starts[p.line - 1]? with
    | none => none
    | some start =>
        let stop := table.starts[p.line]?.getD table.text.byteLength
        let line := table.text.slice start stop
        if p.column < line.length then some (start + Text.byteLength (line.take p.column))
        else if line.length = p.column then some stop
        else none

end LineTable
end Stache
