import Stache.Text

/-!
# Readers

A reader takes a part off the front of a text and gives what the part means, or
it fails and takes nothing.  Readers follow one another in `do` blocks, and
`a <|> b` reads `b` where `a` fails.

`many` is the only loop.  It stops as soon as its reader takes nothing, so it
always ends.
-/

namespace Stache
namespace Toml

/-- A reader of something. -/
abbrev Reader (α : Type) := StateT Text Option α

namespace Reader

variable {α : Type}

/-! ## Characters -/

/-- A character in `p`. -/
def one (p : Char → Bool) : Reader Char := fun t =>
  match t with
  | [] => none
  | c :: r => if p c then some (c, r) else none

/-- All characters in `p` up to the first that is not. -/
def takeWhile (p : Char → Bool) : Reader Text := fun t => some (t.takeWhile p, t.dropWhile p)

/-- The same, but at least one. -/
def takeSome (p : Char → Bool) : Reader Text := fun t =>
  match t.takeWhile p with
  | [] => none
  | found => some (found, t.dropWhile p)

/-- A given text. -/
def exactly (s : Text) : Reader Unit := fun t =>
  if s.isPrefixOf t then some ((), t.drop s.length) else none

/-- A given number of characters. -/
def next (n : Nat) : Reader Text := fun t =>
  if n ≤ t.length then some (t.take n, t.drop n) else none

/-- Nothing, in front of a given character. -/
def before (c : Char) : Reader Unit := fun t => if t.head? = some c then some ((), t) else none

/-- Nothing, at the end. -/
def finish : Reader Unit := fun t => if t.isEmpty then some ((), t) else none

/-- Nothing, if there is something to give. -/
def give (a : Option α) : Reader α := fun t => a.map fun x => (x, t)

/-! ## Combinations -/

/-- What `many` reads from a text. -/
def manyFrom (p : Reader α) (t : Text) : Option (List α × Text) :=
  match p t with
  | none => some ([], t)
  | some (a, rest) =>
      if _h : rest.length < t.length then
        (manyFrom p rest).map fun found => (a :: found.1, found.2)
      else some ([], t)
termination_by t.length
decreasing_by exact _h

/-- The parts that a reader can take one after the other. -/
def many (p : Reader α) : Reader (List α) := manyFrom p

/-- What a reader takes, if it can take anything. -/
def maybe (p : Reader Unit) : Reader Unit := p <|> pure ()

/-- The whole text, read. -/
def all (p : Reader α) (t : Text) : Option α :=
  match p t with
  | some (a, []) => some a
  | _ => none

end Reader

/-! ## Blanks, comments and the ends of lines -/

open Reader

/-- A character that may not stand in a line as it is. -/
def isControl (c : Char) : Bool := (c.val < 0x20 && c != '\t') || c.val == 0x7f

/-- Spaces and tabs. -/
def blank : Reader Unit := do
  let _ ← Reader.takeWhile isBlank

/-- The end of a line. -/
def lineBreak : Reader Unit := exactly ['\n'] <|> exactly ['\r', '\n']

/-- A comment, up to the end of its line. -/
def comment : Reader Unit := do
  exactly ['#']
  let body ← Reader.takeWhile fun c => c != '\n' && c != '\r'
  guard !body.any isControl

/-- Blanks, line ends and comments. -/
def gap : Reader Unit := do
  let _ ← many ((do let _ ← takeSome isBlank) <|> lineBreak <|> comment)

/-- What may stand behind the content of a line. -/
def restOfLine : Reader Unit := do
  blank
  maybe comment
  lineBreak <|> finish

end Toml
end Stache
