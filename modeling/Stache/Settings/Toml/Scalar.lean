import Stache.Binary64.Decimal
import Stache.Settings.Toml.Reader
import Stache.Settings.Value

/-!
# Strings, numbers, dates and times

A string stands in double quotes, with escapes, or in single quotes, without.
Three quotes instead of one let it go over several lines.

Every other scalar is a bare word: a truth value, a number, a date or a time.
Numbers have an integer form, which may be hexadecimal, octal or binary, and a
form with a point or an exponent.  Digits may be grouped by single underscores.
-/

namespace Stache
namespace Toml

open Reader

/-! ## Escapes -/

/-- The value of a hexadecimal digit. -/
def hexDigit? (c : Char) : Option Nat :=
  if '0' ≤ c && c ≤ '9' then some (c.toNat - 48)
  else if 'a' ≤ c && c ≤ 'f' then some (c.toNat - 87)
  else if 'A' ≤ c && c ≤ 'F' then some (c.toNat - 55)
  else none

/-- The character whose number the digits write. -/
def hexChar? (digits : Text) : Option Char := do
  let number ← digits.foldlM (fun n c => (hexDigit? c).map (16 * n + ·)) 0
  if number.isValidChar then some (Char.ofNat number) else none

/-- The character that a letter stands for behind a backslash. -/
def escaped? : Char → Option Char
  | 'b' => some '\x08'
  | 't' => some '\t'
  | 'n' => some '\n'
  | 'f' => some '\x0c'
  | 'r' => some '\x0d'
  | 'e' => some '\x1b'
  | '\x22' => some '\x22'
  | '\\' => some '\\'
  | _ => none

/-- The number of hexadecimal digits behind an escape letter. -/
def digitCount : Char → Nat
  | 'x' => 2
  | 'u' => 4
  | 'U' => 8
  | _ => 0

/-- A backslash with what follows it. -/
def escape : Reader Text := do
  exactly ['\\']
  let letter ← one fun _ => true
  let width := digitCount letter
  let digits ← next width
  let c ← give (if width = 0 then escaped? letter else hexChar? digits)
  return [c]

/-! ## Strings -/

/-- Characters that stand for themselves in a string. -/
def plain (special : Text) : Reader Text := takeSome fun c => !isControl c && !special.contains c

/-- A string on one line. -/
def singleLine (quote : Char) (part : Reader Text) : Reader Text := do
  exactly [quote]
  let parts ← many part
  exactly [quote]
  return parts.flatten

/-- One or two quotes inside a string over several lines. -/
def innerQuotes (quote : Char) : Reader Text := do
  let quotes ← takeSome (· == quote)
  guard (quotes.length < 3)
  return quotes

/-- Three quotes at the end of a string, behind up to two that belong to it. -/
def closingQuotes (quote : Char) : Reader Text := fun t =>
  let count := (t.takeWhile (· == quote)).length
  if count < 3 then none
  else
    let inner := min (count - 3) 2
    some (List.replicate inner quote, t.drop (inner + 3))

/-- The end of a line inside a string. -/
def innerBreak : Reader Text := do
  lineBreak
  return ['\n']

/-- A string over several lines.  A line break right at its start does not
belong to it. -/
def multiLine (quote : Char) (part : Reader Text) : Reader Text := do
  exactly [quote, quote, quote]
  maybe lineBreak
  let parts ← many (part <|> innerBreak <|> innerQuotes quote)
  let last ← closingQuotes quote
  return parts.flatten ++ last

/-- A backslash at the end of a line takes the line break away, and with it all
blanks and line breaks that follow. -/
def joinedLines : Reader Text := do
  exactly ['\\']
  blank
  lineBreak
  let _ ← many ((do let _ ← takeSome isBlank) <|> lineBreak)
  return []

/-- A part of a string in double quotes. -/
def basicPart : Reader Text := plain ['\x22', '\\'] <|> escape

/-- A part of a string in single quotes. -/
def literalPart : Reader Text := plain ['\x27']

/-- A string on one line, in either quote. -/
def shortString : Reader Text := singleLine '\x22' basicPart <|> singleLine '\x27' literalPart

/-- A string over several lines, in either quote. -/
def longString : Reader Text :=
  multiLine '\x22' (basicPart <|> joinedLines) <|> multiLine '\x27' literalPart

/-! ## Numbers -/

/-- Digits, with single underscores between them. -/
def isGrouped (isDigit : Char → Bool) (t : Text) : Bool :=
  (List.splitOnP (· == '_') t).all fun group => !group.isEmpty && group.all isDigit

/-- Decimal digits. -/
def isDigits (t : Text) : Bool := isGrouped Char.isDigit t

/-- A whole number without a sign and without needless zeros. -/
def isWhole (t : Text) : Bool := isDigits t && (t.head? != some '0' || t.length = 1)

/-- The text without a sign at its start. -/
def unsigned : Text → Text
  | '+' :: r => r
  | '-' :: r => r
  | t => t

/-- The text without underscores. -/
def ungrouped (t : Text) : Text := t.filter (· != '_')

/-- The text up to the first character of `marks`, and what follows that
character. -/
def cut (marks : Text) (t : Text) : Text × Option Text :=
  (t.takeWhile fun c => !marks.contains c,
    (t.dropWhile fun c => !marks.contains c).tail?)

/-- A number with digits up to a base. -/
def digitsIn (base : Nat) (t : Text) : Nat :=
  t.foldl (fun n c => base * n + (hexDigit? c).getD 0) 0

/-- One more than the greatest integer. -/
def integerBound : Nat := 0x100000000000000000000000000000000

/-- The base of the prefix of an integer. -/
def base? : Text → Option (Nat × Text)
  | '0' :: 'x' :: digits => some (16, digits)
  | '0' :: 'o' :: digits => some (8, digits)
  | '0' :: 'b' :: digits => some (2, digits)
  | _ => none

/-- Whether an integer is in range, if the word is one.  Below zero the range is
half as wide. -/
def integer? (word : Text) : Option Bool :=
  match base? word with
  | some (base, digits) =>
      if isGrouped (fun c => (hexDigit? c).any (· < base)) digits then
        some (digitsIn base (ungrouped digits) < integerBound)
      else none
  | none =>
      if isWhole (unsigned word) then
        let size := digitsIn 10 (ungrouped (unsigned word))
        some (if word.head? = some '-' then 2 * size ≤ integerBound else size < integerBound)
      else none

/-- The word is a number with a point or an exponent. -/
def isFloat (word : Text) : Bool :=
  let (mantissa, exponent) := cut ['e', 'E'] (unsigned word)
  let (whole, fraction) := cut ['.'] mantissa
  isWhole whole && fraction.all isDigits && exponent.all fun e => isDigits (unsigned e)

/-- The word names infinity or no number. -/
def isNamedFloat (word : Text) : Bool :=
  unsigned word == ['i', 'n', 'f'] || unsigned word == ['n', 'a', 'n']

/-- The value is not finite. -/
def isInfinite : Option Binary64 → Bool
  | some (.infinite _) => true
  | _ => false

/-- Whether a number is in range, if the word is one.  A number that only
rounding makes infinite is not. -/
def number? (word : Text) : Option Bool :=
  match integer? word with
  | some inRange => some inRange
  | none =>
      if isNamedFloat word then some true
      else if isFloat word then some (!isInfinite (Binary64.read? (ungrouped word)))
      else none

/-! ## Dates and times -/

/-- A number of a given count of digits, between two bounds. -/
def field (count low high : Nat) : Reader Nat := do
  let digits ← next count
  guard (digits.all Char.isDigit)
  let value := Binary64.digitsValue digits
  guard (low ≤ value && value ≤ high)
  return value

/-- The number of days in a month. -/
def daysIn (year month : Nat) : Nat :=
  if month = 2 then
    if year % 4 = 0 && (year % 100 ≠ 0 || year % 400 = 0) then 29 else 28
  else if [4, 6, 9, 11].contains month then 30
  else 31

/-- A day. -/
def date : Reader Unit := do
  let year ← field 4 0 9999
  exactly ['-']
  let month ← field 2 1 12
  exactly ['-']
  let _ ← field 2 1 (daysIn year month)

/-- A time of the day.  The seconds may be left out. -/
def time : Reader Unit := do
  let _ ← field 2 0 23
  exactly [':']
  let _ ← field 2 0 59
  maybe do
    exactly [':']
    let _ ← field 2 0 60
    maybe do
      exactly ['.']
      let _ ← takeSome Char.isDigit

/-- The distance from the time at longitude zero. -/
def offset : Reader Unit :=
  (do let _ ← one fun c => c == 'Z' || c == 'z') <|> do
    let _ ← one fun c => c == '+' || c == '-'
    let _ ← field 2 0 23
    exactly [':']
    let _ ← field 2 0 59

/-- A day, a time or both. -/
def moment : Reader Unit :=
  (do
    date
    maybe do
      let _ ← one fun c => c == 'T' || c == 't' || c == ' '
      time
      maybe offset) <|> time

/-! ## Bare words -/

/-- A character of a bare word. -/
def isWordChar (c : Char) : Bool :=
  !(isBlank c || ['\n', '\x0d', ',', '=', '#', '[', ']', '{', '}'].contains c)

/-- A bare word.  A space may stand between a day and a time. -/
def word : Reader Text := do
  let first ← takeSome isWordChar
  if (date.all first).isSome then
    (do
      exactly [' ']
      let second ← takeSome isWordChar
      return first ++ ' ' :: second) <|> pure first
  else return first

/-- The value of a bare word. -/
def wordValue? (w : Text) : Option Value :=
  if w = ['t', 'r', 'u', 'e'] then some (.boolean true)
  else if w = ['f', 'a', 'l', 's', 'e'] then some (.boolean false)
  else
    match number? w with
    | some inRange => some (.number inRange)
    | none => (moment.all w).map fun _ => .moment

/-- A string or a bare word. -/
def scalar : Reader Value :=
  (do return .string (Text.str (← longString))) <|>
    (do return .string (Text.str (← shortString))) <|>
    (do give (wordValue? (← word)))

end Toml
end Stache
