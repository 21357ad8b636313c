import Stache.Binary64
import Stache.Text

/-!
# Reading decimals

The written form of a number: an optional sign, then digits with an optional
point and an optional exponent, or the word `inf`, `infinity` or `nan` in any
case.  A point needs a digit on one side, an exponent needs a digit.
-/

namespace Stache.Binary64

/-- The value of a run of decimal digits. -/
def digitsValue (digits : Text) : Nat :=
  digits.foldl (fun n c => 10 * n + (c.toNat - '0'.toNat)) 0

/-- The sign at the start of a text, and what follows it. -/
def splitSign : Text → Bool × Text
  | '-' :: r => (true, r)
  | '+' :: r => (false, r)
  | t => (false, t)

/-- The exponent that follows the digits: nothing, or `e` with a number. -/
def readExponent? : Text → Option Int
  | [] => some 0
  | c :: r =>
      if c = 'e' || c = 'E' then
        let (negative, digits) := splitSign r
        if digits.isEmpty || !digits.all Char.isDigit then none
        else some (if negative then -(digitsValue digits : Int) else digitsValue digits)
      else none

/-- The digits after the point, and what follows them. -/
def splitFraction : Text → Text × Text
  | '.' :: r => (r.takeWhile Char.isDigit, r.dropWhile Char.isDigit)
  | t => ([], t)

/-- An unsigned decimal. -/
def readUnsigned? (negative : Bool) (t : Text) : Option Binary64 :=
  let whole := t.takeWhile Char.isDigit
  let (fraction, rest) := splitFraction (t.dropWhile Char.isDigit)
  let digits := whole ++ fraction
  if digits.isEmpty then none
  else
    (readExponent? rest).map fun exponent =>
      let places := (digits.dropWhile (· == '0')).length
      ofDecimal negative (digitsValue digits) places (exponent - fraction.length)

/-- The word for a value that no decimal writes. -/
def readWord? (negative : Bool) (t : Text) : Option Binary64 :=
  let word := t.map Char.toLower
  if word = "inf".toList || word = "infinity".toList then some (.infinite negative)
  else if word = "nan".toList then some .nan
  else none

/-- The number a text writes, if it writes one. -/
def read? (t : Text) : Option Binary64 :=
  let (negative, unsigned) := splitSign t
  (readUnsigned? negative unsigned).or (readWord? negative unsigned)

/-- The number a text writes, NaN for a text that writes none. -/
def read (t : Text) : Binary64 := (read? t).getD .nan

example : read? "1.5e1".toList = some (nearest false 15 1) := by decide +kernel
example : read? ".5".toList = some (nearest false 1 2) := by decide +kernel
example : read? "-Infinity".toList = some (.infinite true) := by decide +kernel
example : read? ".".toList = none := by decide +kernel
example : read? "1e".toList = none := by decide +kernel

end Stache.Binary64
