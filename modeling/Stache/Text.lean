import Stache.Text.Space

/-!
# Text

Template text is a list of characters.  Every rule of the language looks at
single characters, columns count them, and a byte offset is a sum over them.

The trims below are the four edits that whitespace control makes to a piece of
text: all white space at an end, or the padding that one line of it can hold.
-/

namespace Stache

/-- Template text. -/
abbrev Text := List Char

namespace Text

/-- The text as a string, for messages and printing. -/
def str (t : Text) : String := String.ofList t

/-- The number of bytes of the text in UTF-8. -/
def byteLength (t : Text) : Nat := t.foldr (fun c n => c.utf8Size + n) 0

@[simp] theorem byteLength_nil : byteLength [] = 0 := rfl

@[simp] theorem byteLength_cons (c : Char) (t : Text) :
    byteLength (c :: t) = c.utf8Size + byteLength t := rfl

@[simp] theorem byteLength_append (s t : Text) :
    byteLength (s ++ t) = byteLength s + byteLength t := by
  induction s with
  | nil => simp
  | cons c s ih => simp [ih, Nat.add_assoc]

/-! ## Parts of a text -/

/-- The longest suffix of characters in `p`. -/
def trailing (p : Char → Bool) (t : Text) : Text := (t.reverse.takeWhile p).reverse

/-- The text without its longest suffix of characters in `p`. -/
def trimTrailing (p : Char → Bool) (t : Text) : Text := (t.reverse.dropWhile p).reverse

theorem trimTrailing_append_trailing (p : Char → Bool) (t : Text) :
    trimTrailing p t ++ trailing p t = t := by
  simp only [trimTrailing, trailing, ← List.reverse_append, List.takeWhile_append_dropWhile,
    List.reverse_reverse]

/-- The text before the first suffix that satisfies `stop`, and that suffix. -/
def splitBefore (stop : Text → Bool) : Text → Text × Text
  | [] => ([], [])
  | c :: r =>
      if stop (c :: r) then ([], c :: r)
      else
        let (before, rest) := splitBefore stop r
        (c :: before, rest)
termination_by structural t => t

theorem splitBefore_append (stop : Text → Bool) (t : Text) :
    (splitBefore stop t).1 ++ (splitBefore stop t).2 = t := by
  induction t with
  | nil => rfl
  | cons c r ih =>
      rw [splitBefore]
      split
      · rfl
      · simpa using ih

/-- A text is split where it satisfies `stop`. -/
theorem stop_splitBefore {stop : Text → Bool} {t : Text} (h : (splitBefore stop t).2 ≠ []) :
    stop (splitBefore stop t).2 = true := by
  induction t with
  | nil => exact absurd rfl h
  | cons c r ih =>
      rw [splitBefore] at h ⊢
      split
      · assumption
      · next hstop =>
          rw [if_neg hstop] at h
          exact ih h

/-- The number of characters up to the end of the first mark.  `mark` says how
long the mark at the start of a text is, if there is one. -/
def endOfFirst (mark : Text → Option Nat) : Text → Option Nat
  | [] => none
  | c :: r =>
      match mark (c :: r) with
      | some width => some width
      | none => (endOfFirst mark r).map (· + 1)
termination_by structural t => t

/-- The part of the text between two byte offsets that are character
boundaries. -/
def slice (t : Text) (start stop : Nat) : Text :=
  match t with
  | [] => []
  | c :: r =>
      let rest := slice r (start - c.utf8Size) (stop - c.utf8Size)
      if start = 0 && 0 < stop then c :: rest else rest
termination_by structural t

/-! ## Trims -/

/-- All leading white space removed. -/
def trimStart (t : Text) : Text := t.dropWhile isSpace

/-- All trailing white space removed. -/
def trimEnd (t : Text) : Text := trimTrailing isSpace t

/-- Trailing spaces and tabs removed. -/
def trimPadding (t : Text) : Text := trimTrailing isBlank t

/-- The text without a carriage return at its start. -/
def dropReturn : Text → Text
  | '\r' :: r => r
  | t => t

/-- The text without a line feed at its start. -/
def dropLineFeed : Text → Text
  | '\n' :: r => r
  | t => t

/-- Leading spaces and tabs removed, with at most one line break after them. -/
def trimLine (t : Text) : Text := dropLineFeed (dropReturn (t.dropWhile isBlank))

/-- The trailing spaces and tabs. -/
def padding (t : Text) : Text := trailing isBlank t

theorem trimPadding_append_padding (t : Text) : trimPadding t ++ padding t = t :=
  trimTrailing_append_trailing isBlank t

/-! ## Lines -/

/-- The text starts a new line: a line feed stands in its leading white space. -/
def startsLine (t : Text) : Bool := (t.takeWhile isSpace).contains '\n'

/-- The text ends its line: a line feed stands in its trailing white space. -/
def endsLine (t : Text) : Bool := (trailing isSpace t).contains '\n'

/-- The text holds white space only. -/
def allSpace (t : Text) : Bool := t.all isSpace

example : trimLine " \t\r\n\nrest".toList = "\nrest".toList := by decide
example : trimPadding "a\n \t".toList = "a\n".toList := by decide
example : slice "aéb-".toList 1 4 = "éb".toList := by decide

end Text
end Stache
