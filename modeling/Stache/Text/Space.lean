/-!
# White space

Two notions of blank appear in the rules of the language.  *White space* is the
Unicode property of that name.  It ends an identifier, and it is what a `~`
removes.  A *blank* is a space or a tab, the padding that stands before a tag
on its own line.  Between two tokens of a tag a third, *tag space*, is skipped:
blanks and the two line break characters.
-/

namespace Stache

/-- The property White_Space of the Unicode character database. -/
def isSpace (c : Char) : Bool :=
  let n := c.toNat
  (0x09 ≤ n && n ≤ 0x0D) || n == 0x20 || n == 0x85 || n == 0xA0 || n == 0x1680 ||
    (0x2000 ≤ n && n ≤ 0x200A) || n == 0x2028 || n == 0x2029 || n == 0x202F ||
    n == 0x205F || n == 0x3000

/-- A space or a tab. -/
def isBlank (c : Char) : Bool := c == ' ' || c == '\t'

/-- What is skipped between two tokens of a tag. -/
def isTagSpace (c : Char) : Bool := c == ' ' || c == '\t' || c == '\r' || c == '\n'

theorem isSpace_of_isTagSpace {c : Char} (h : isTagSpace c = true) : isSpace c = true := by
  simp only [isTagSpace, Bool.or_eq_true, beq_iff_eq] at h
  rcases h with ((rfl | rfl) | rfl) | rfl <;> decide

theorem isTagSpace_of_isBlank {c : Char} (h : isBlank c = true) : isTagSpace c = true := by
  simp only [isBlank, Bool.or_eq_true, beq_iff_eq] at h
  rcases h with rfl | rfl <;> decide

end Stache
