/-!
# Double precision numbers

A number literal has the value of the binary64 number nearest to what is
written, ties to the even mantissa.  Nothing is computed with such values.
They are read from decimals, compared and written again, and all of this is
exact arithmetic on naturals.

A finite value is `± mantissa · 2 ^ exponent`.  In the values that `nearest`
builds the mantissa has at most 53 bits, the exponent is at least `-1074`, and
the mantissa has fewer than 53 bits only at the least exponent.
-/

namespace Stache

/-- A binary64 value. -/
inductive Binary64 where
  | nan
  | infinite (negative : Bool)
  /-- `± mantissa · 2 ^ exponent`. -/
  | finite (negative : Bool) (mantissa : Nat) (exponent : Int)
deriving DecidableEq, Repr, Inhabited

namespace Binary64

/-- The least exponent. -/
def leastExponent : Int := -1074

/-- The greatest exponent. -/
def greatestExponent : Int := 971

/-- A zero. -/
def zero (negative : Bool) : Binary64 := .finite negative 0 leastExponent

/-- Equality of numbers: a NaN differs from itself, and the two zeros agree. -/
def agrees : Binary64 → Binary64 → Bool
  | .infinite a, .infinite b => a == b
  | .finite s m e, .finite t n f => (m == 0 && n == 0) || (s == t && m == n && e == f)
  | _, _ => false

/-- The quotient `n / d` to the nearest natural, ties to even. -/
def divNearestEven (n d : Nat) : Nat :=
  let q := n / d
  let r := n % d
  if 2 * r < d then q
  else if d < 2 * r then q + 1
  else if q % 2 = 0 then q else q + 1

/-- `n / d` in units of `2 ^ e`, as a numerator and a denominator. -/
def inUnits (n d : Nat) (e : Int) : Nat × Nat :=
  match e with
  | .ofNat k => (n, d * Nat.pow 2 k)
  | .negSucc k => (n * Nat.pow 2 (k + 1), d)

/-- The least mantissa of 53 bits. -/
def leastFullMantissa : Nat := Nat.pow 2 52

/-- The exponent at which `n / d` has 53 bits before the point.  The bit
lengths settle it up to one. -/
def unitExponent (n d : Nat) : Int :=
  let e : Int := (n.log2 : Int) - (d.log2 : Int) - 52
  let (a, b) := inUnits n d e
  if a < leastFullMantissa * b then e - 1 else e

/-- The value nearest to `± n / d`, for a positive `d`. -/
def nearest (negative : Bool) (n d : Nat) : Binary64 :=
  if n = 0 then zero negative
  else
    let e := max (unitExponent n d) leastExponent
    let (a, b) := inUnits n d e
    let m := divNearestEven a b
    let (m, e) := if m = 2 * leastFullMantissa then (leastFullMantissa, e + 1) else (m, e)
    if greatestExponent < e then .infinite negative else .finite negative m e

/-- The value nearest to `± digits · 10 ^ exponent`.  `places` is the number of
digits without leading zeros: it tells a number beyond the range of the format
from its exponent alone. -/
def ofDecimal (negative : Bool) (digits places : Nat) (exponent : Int) : Binary64 :=
  if digits = 0 then zero negative
  else if 400 < exponent + places then .infinite negative
  else if exponent + places < -400 then zero negative
  else
    match exponent with
    | .ofNat k => nearest negative (digits * Nat.pow 10 k) 1
    | .negSucc k => nearest negative digits (Nat.pow 10 (k + 1))

example : nearest false 1 1 = .finite false (2 ^ 52) (-52) := by decide +kernel
example : ofDecimal false 1 1 309 = .infinite false := by decide +kernel
example : ofDecimal false 5 1 (-324) = .finite false 1 (-1074) := by decide +kernel
example : ofDecimal true 2 1 (-324) = .zero true := by decide +kernel

end Binary64
end Stache
