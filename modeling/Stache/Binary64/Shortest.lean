import Stache.Binary64
import Stache.Text

/-!
# The shortest decimal of a number

A number is written with the fewest digits that read back as the same number.
The reals that round to `m · 2 ^ e` form an interval around it, with its ends
exactly when `m` is even.  Of the grids of multiples of `10 ^ p`, the coarsest
that has a point in the interval gives the digits.  Only the two neighbours of
the value on a grid can lie in the interval; of two hits the nearer is taken,
the greater if both are as near.

Everything is measured in quarters of the unit `2 ^ e`, so that the ends of the
interval are whole.
-/

namespace Stache.Binary64

/-- The half distance to the number below, in quarters of the unit.  Below the
least mantissa of an exponent the numbers lie twice as close. -/
def gapBelow (m : Nat) (e : Int) : Nat :=
  if m = leastFullMantissa && leastExponent < e then 1 else 2

/-- A positive number with its rounding interval, all over one denominator. -/
structure Interval where
  low : Nat
  value : Nat
  high : Nat
  denominator : Nat
  /-- The ends belong to the interval. -/
  closed : Bool

/-- The reals that round to `m · 2 ^ e`. -/
def interval (m : Nat) (e : Int) : Interval :=
  let (scale, denominator) := inUnits 1 1 (2 - e)
  { low := (4 * m - gapBelow m e) * scale
    value := 4 * m * scale
    high := (4 * m + 2) * scale
    denominator := denominator
    closed := m % 2 == 0 }

namespace Interval

/-- `n / d` lies in the interval. -/
def contains (i : Interval) (n d : Nat) : Bool :=
  let left := i.low * d
  let right := i.high * d
  let x := n * i.denominator
  if i.closed then left ≤ x && x ≤ right else left < x && x < right

/-- The multiple of the step `num / den` in the interval that is nearest to the
value, as a number of steps. -/
def point? (i : Interval) (num den : Nat) : Option Nat :=
  let n := i.value * den
  let d := i.denominator * num
  let below := n / d
  let above := below + 1
  let hitBelow := i.contains (below * num) den
  let hitAbove := i.contains (above * num) den
  if hitBelow && (!hitAbove || 2 * (n % d) < d) then some below
  else if hitAbove then some above
  else none

/-- The coarsest grid with a point, from `10 ^ p` downwards, and the point.  The
fuel is the number of grids tried. -/
def coarsest? (i : Interval) : Nat → Int → Option (Nat × Int)
  | 0, _ => none
  | fuel + 1, p =>
      let hit :=
        match p with
        | .ofNat k => i.point? (Nat.pow 10 k) 1
        | .negSucc k => i.point? 1 (Nat.pow 10 (k + 1))
      match hit with
      | some n => some (n, p)
      | none => coarsest? i fuel (p - 1)

end Interval

/-- The shortest decimal `n · 10 ^ p` of a positive `m · 2 ^ e`.  No number of
the format reaches `10 ^ 309`, and `10 ^ -324` is within every interval. -/
def shortest (m : Nat) (e : Int) : Nat × Int :=
  ((interval m e).coarsest? 640 309).getD (0, 0)

/-- The decimal `n · 10 ^ p` without an exponent. -/
def positional (n : Nat) (p : Int) : String :=
  let digits := Nat.toDigits 10 n
  match p with
  | .ofNat k => String.ofList (digits ++ List.replicate k '0')
  | .negSucc k =>
      let places := k + 1
      if places < digits.length then
        String.ofList (digits.take (digits.length - places) ++ '.' ::
          digits.drop (digits.length - places))
      else
        String.ofList ('0' :: '.' :: (List.replicate (places - digits.length) '0' ++ digits))

/-- The text of a number: shortest digits, never an exponent, no point in a
whole number, and a sign for negative zero. -/
def display : Binary64 → String
  | .nan => "NaN"
  | .infinite negative => if negative then "-inf" else "inf"
  | .finite negative m e =>
      let digits :=
        if m = 0 then "0"
        else
          let (n, p) := shortest m e
          positional n p
      if negative then "-" ++ digits else digits

end Stache.Binary64
