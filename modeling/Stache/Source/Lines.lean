import Stache.Source.Position
import Stache.Text

/-!
# Lines of a text

`position` finds the line and column of a byte offset, and `offset` goes back.
A line includes the line feed that ends it, so a text with `n` line feeds has
`n + 1` lines and the last one may be empty.  The column after a line feed is
the start of the next line under another name: `offset` accepts both.
-/

namespace Stache.Source

/-- The place `offset` bytes into `t`, when `t` starts at `p`. -/
def positionFrom (p : Position) : Text → Nat → Position
  | [], _ => p
  | c :: r, offset =>
      if offset < c.utf8Size then p else positionFrom (p.next c) r (offset - c.utf8Size)
termination_by structural t => t

/-- The line and column of a byte offset.  An offset past the end stands for
the end. -/
def position (t : Text) (offset : Nat) : Position := positionFrom .origin t offset

/-- The lines of a text, each with its line feed. -/
def lines : Text → List Text
  | [] => [[]]
  | c :: r =>
      if c = '\n' then [c] :: lines r
      else
        match lines r with
        | [] => [[c]]
        | l :: ls => (c :: l) :: ls
termination_by structural t => t

/-- The byte offset of a line and column, if the text has that line and the
line has that many characters. -/
def offset (t : Text) (p : Position) : Option Nat :=
  if p.line = 0 then none
  else
    let before := (lines t).take (p.line - 1)
    match (lines t)[p.line - 1]? with
    | some l =>
        if p.column ≤ l.length then
          some (Text.byteLength before.flatten + Text.byteLength (l.take p.column))
        else none
    | none => none

/-- The lines and columns of a span. -/
def extent (t : Text) (s : Span) : Extent := ⟨position t s.start, position t s.stop⟩

/-- The lines and columns of a span, in a named source. -/
def location (t : Text) (source : Option String) (s : Span) : Location :=
  ⟨source, position t s.start, position t s.stop⟩

theorem lines_ne_nil (t : Text) : lines t ≠ [] := by
  cases t with
  | nil => simp [lines]
  | cons c r =>
      rw [lines]
      split
      · simp
      · split <;> simp

/-- No character is lost between the lines. -/
theorem flatten_lines (t : Text) : (lines t).flatten = t := by
  induction t with
  | nil => rfl
  | cons c r ih =>
      rw [lines]
      split
      · simp [ih]
      · split
        · next h => exact absurd h (lines_ne_nil r)
        · next h => rw [h] at ih; simpa using ih

example : position "ab\ncd\n\nef".toList 7 = ⟨4, 0⟩ := by decide
example : position "héllo".toList 3 = ⟨1, 2⟩ := by decide
example : offset "ab\ncd".toList ⟨1, 3⟩ = some 3 := by decide
example : offset "ab\ncd".toList ⟨2, 0⟩ = some 3 := by decide
example : offset "ab\ncd".toList ⟨2, 3⟩ = none := by decide

end Stache.Source
