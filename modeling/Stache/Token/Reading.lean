import Stache.Token

/-!
# Tokens inside a tag

`readToken` reads the token at the start of a text that lies inside a tag.  Its
alternatives are tried in order and the first that applies wins, so the longer
delimiters stand before the shorter ones.

An identifier, a keyword and a number must be followed by something that can
follow them.  Otherwise the alternative does not apply.
-/

namespace Stache

/-- The result of reading a token. -/
inductive Reading where
  /-- A token, and the number of its characters. -/
  | token (token : Token) (width : Nat)
  | unterminatedComment
  | unterminatedString
deriving DecidableEq, Repr

namespace Reading

/-! ## Characters -/

/-- The characters that no bare identifier holds, white space aside. -/
def reserved : Text :=
  ['!', '\x22', '#', '%', '&', '\x27', '(', ')', '*', '+', ',', '.', '/', ';', '<', '=', '>', '@',
    '[', '\\', ']', '^', '\x60', '{', '|', '}', '~']

/-- The character can stand in a bare identifier. -/
def isIdent (c : Char) : Bool := !(isSpace c || reserved.contains c)

/-- What may follow an identifier. -/
def afterIdent : Text := ['=', '~', '}', '/', '.', ')', '|']

/-- What may follow a keyword or a number. -/
def afterLiteral : Text := ['~', '}', ')']

/-- The text ends here, or goes on with white space, with a character of
`allowed` or, where brackets are lists, with a closing bracket. -/
def boundary (allowed : Text) (square : Bool) : Text → Bool
  | [] => true
  | c :: _ => isSpace c || allowed.contains c || (square && c == ']')

/-! ## Fixed spellings -/

/-- A token with one spelling. -/
def fixed (spelling : Text) (t : Token) (cs : Text) : Option Reading :=
  if spelling.isPrefixOf cs then some (.token t spelling.length) else none

/-- A keyword, which must end at a boundary. -/
def keyword (spelling : Text) (t : Token) (square : Bool) (cs : Text) : Option Reading :=
  if spelling.isPrefixOf cs && boundary afterLiteral square (cs.drop spelling.length) then
    some (.token t spelling.length)
  else none

/-! ## Tag delimiters -/

/-- The width of the `~` at the start of a text. -/
def tildeWidth : Text → Nat
  | '~' :: _ => 1
  | _ => 0

/-- The width of the tag space at the start of a text. -/
def spaceWidth (cs : Text) : Nat := (cs.takeWhile isTagSpace).length

/-- The width up to the end of a `}}`, with space and a `~` in front of it. -/
def closingWidth? (cs : Text) : Option Nat :=
  let space := spaceWidth cs
  let tilde := tildeWidth (cs.drop space)
  if ['}', '}'].isPrefixOf (cs.drop (space + tilde)) then some (space + tilde + 2) else none

/-- The width of `else` with space in front of it. -/
def elseWidth? (cs : Text) : Option Nat :=
  let space := spaceWidth cs
  if ['e', 'l', 's', 'e'].isPrefixOf (cs.drop space) then some (space + 4) else none

/-- The rest of an else tag after its `{{`: `^}}` or `else}}`. -/
def elseTagWidth? (cs : Text) : Option Nat :=
  match cs with
  | '^' :: r => (closingWidth? r).map (· + 1)
  | _ =>
      match elseWidth? cs with
      | some width => (closingWidth? (cs.drop width)).map (· + width)
      | none => none

/-- The rest of the opener of a chain link after its `{{`: an `else` that is a
word of its own. -/
def chainWidth? (cs : Text) : Option Nat :=
  match elseWidth? cs with
  | some width => if (cs.drop width).head?.any isIdent then none else some width
  | none => none

/-- The end of a comment, counted from behind the `!`.  A comment that starts
with `--` ends at `--}}` or `--~}}`, any other at `}}`. -/
def commentWidth? (body : Text) : Option Nat :=
  if ['-', '-'].isPrefixOf body then
    body.endOfFirst fun t =>
      if ['-', '-', '}', '}'].isPrefixOf t then some 4
      else if ['-', '-', '~', '}', '}'].isPrefixOf t then some 5
      else none
  else
    body.endOfFirst fun t => if ['}', '}'].isPrefixOf t then some 2 else none

/-- The delimiter that starts at `cs`.  Its `{{` and `~` take `width`
characters and `r` follows them. -/
def openerAt (cs : Text) (width : Nat) (r : Text) : Reading :=
  let tag (kind : Opener) (more : Nat) : Reading :=
    .token (.opener kind (cs.take (width + more))) (width + more)
  let otherwise : Reading :=
    match elseTagWidth? r with
    | some more => .token (.elseTag (cs.take (width + more))) (width + more)
    | none =>
        match r, chainWidth? r with
        | '^' :: _, _ => tag .inverse 1
        | _, some more => tag .chain more
        | '{' :: _, none => tag .unescaped 1
        | '&' :: _, none => tag .plain 1
        | '!' :: body, none =>
            match commentWidth? body with
            | some more => .token (.comment (cs.take (width + 1 + more))) (width + 1 + more)
            | none => .unterminatedComment
        | '*' :: _, none => tag .plain 1
        | _, none => tag .plain 0
  match r with
  | '>' :: _ => tag .inclusion 1
  | '#' :: '>' :: _ => tag .inclusionBlock 2
  | '#' :: '*' :: _ => tag .block 2
  | '#' :: _ => tag .block 1
  | '/' :: _ => tag .close 1
  | _ => otherwise

/-- Any tag delimiter that starts with `{{`. -/
def opener (cs : Text) : Option Reading :=
  match cs with
  | '{' :: '{' :: r =>
      let width := 2 + tildeWidth r
      some (openerAt cs width (cs.drop width))
  | _ => none

/-- `}}}` or `}}`, each with an optional `~`. -/
def closer (cs : Text) : Option Reading :=
  let unescaped : Option Reading :=
    match cs with
    | '}' :: r =>
        let width := 1 + tildeWidth r
        if ['}', '}'].isPrefixOf (cs.drop width) then
          some (.token (.unescapedCloser (cs.take (width + 2))) (width + 2))
        else none
    | _ => none
  let plain : Option Reading :=
    let width := tildeWidth cs
    if ['}', '}'].isPrefixOf (cs.drop width) then
      some (.token (.closer (cs.take (width + 2))) (width + 2))
    else none
  unescaped.or plain

/-! ## Paths -/

/-- `..` and a `.` of its own are identifiers, `.#` and the other dots and
slashes separators. -/
def dots (cs : Text) : Option Reading :=
  match cs with
  | '.' :: '.' :: _ => some (.token (.ident ['.', '.']) 2)
  | '.' :: r =>
      if boundary afterIdent false r then some (.token (.ident ['.']) 1)
      else
        match r with
        | '#' :: _ => some (.token (.separator .member) 2)
        | _ => some (.token (.separator .dot) 1)
  | '/' :: _ => some (.token (.separator .slash) 1)
  | _ => none

/-- A bare identifier. -/
def ident (square : Bool) (cs : Text) : Option Reading :=
  let name := cs.takeWhile isIdent
  if !name.isEmpty && boundary afterIdent square (cs.dropWhile isIdent) then
    some (.token (.ident name) name.length)
  else none

/-- The number of characters up to and including the closing bracket.  A
backslash before a bracket keeps it from closing. -/
def bracketWidth? : Text → Option Nat
  | [] => none
  | ']' :: _ => some 1
  | '\\' :: ']' :: r => (bracketWidth? r).map (· + 2)
  | _ :: r => (bracketWidth? r).map (· + 1)
termination_by structural t => t

/-- A backslash before a backslash or a closing bracket is dropped. -/
def unescapeBracket : Text → Text
  | [] => []
  | '\\' :: '\\' :: r => '\\' :: unescapeBracket r
  | '\\' :: ']' :: r => ']' :: unescapeBracket r
  | c :: r => c :: unescapeBracket r
termination_by structural t => t

/-- An identifier in brackets. -/
def bracketIdent (cs : Text) : Option Reading :=
  match cs with
  | '[' :: r =>
      (bracketWidth? r).map fun width =>
        .token (.ident (unescapeBracket (cs.take (width + 1)))) (width + 1)
  | _ => none

/-- Where brackets are lists, `[` and `]` delimit them.  After a separator a
`[` still starts a segment. -/
def arrayDelimiter (square afterSeparator : Bool) (cs : Text) : Option Reading :=
  match cs with
  | '[' :: _ => if square && !afterSeparator then some (.token .arrayOpen 1) else none
  | ']' :: _ => if square then some (.token .arrayClose 1) else none
  | _ => none

/-! ## Literals -/

/-- The place of the first quote that no backslash escapes. -/
def closingQuote? (quote : Char) : Text → Option Nat
  | [] => none
  | [c] => if c = quote then some 0 else none
  | c :: d :: r =>
      if c = '\\' ∧ d = quote then (closingQuote? quote r).map (· + 2)
      else if c = quote then some 0
      else (closingQuote? quote (d :: r)).map (· + 1)
termination_by structural t => t

/-- The place of the last quote that a backslash escapes. -/
def lastEscapedQuote? (quote : Char) : Text → Option Nat
  | [] => none
  | [_] => none
  | c :: d :: r =>
      if c = '\\' ∧ d = quote then
        some (match lastEscapedQuote? quote r with
          | some place => place + 2
          | none => 1)
      else (lastEscapedQuote? quote (d :: r)).map (· + 1)
termination_by structural t => t

/-- A backslash before the quote is dropped. -/
def unescapeQuote (quote : Char) : Text → Text
  | [] => []
  | [c] => [c]
  | c :: d :: r =>
      if c = '\\' ∧ d = quote then quote :: unescapeQuote quote r
      else c :: unescapeQuote quote (d :: r)
termination_by structural t => t

/-- A string in either quote.  If no quote closes it plainly, the last escaped
quote does. -/
def quoted (cs : Text) : Option Reading :=
  match cs with
  | quote :: body =>
      if quote = '\x22' ∨ quote = '\x27' then
        some <|
          match (closingQuote? quote body).or (lastEscapedQuote? quote body) with
          | some place => .token (.string (unescapeQuote quote (body.take place))) (place + 2)
          | none => .unterminatedString
      else none
  | [] => none

/-- The width of a point with digits after it. -/
def fractionWidth : Text → Nat
  | '.' :: r =>
      let digits := (r.takeWhile Char.isDigit).length
      if digits = 0 then 0 else digits + 1
  | _ => 0

/-- The width of a number: a sign, digits, and a point with digits. -/
def numberWidth? (cs : Text) : Option Nat :=
  let sign := if cs.head? = some '-' then 1 else 0
  let whole := ((cs.drop sign).takeWhile Char.isDigit).length
  if whole = 0 then none else some (sign + whole + fractionWidth (cs.drop (sign + whole)))

/-- A number. -/
def number (square : Bool) (cs : Text) : Option Reading :=
  match numberWidth? cs with
  | some width =>
      if boundary afterLiteral square (cs.drop width) then
        some (.token (.number (cs.take width)) width)
      else none
  | none => none

/-- `as |`, with space between its parts. -/
def blockParams (cs : Text) : Option Reading :=
  match cs with
  | 'a' :: 's' :: r =>
      let space := spaceWidth r
      if space ≠ 0 ∧ (r.drop space).head? = some '|' then some (.token .paramsOpen (space + 3))
      else none
  | _ => none

/-! ## All tokens -/

/-- The token at the start of a text inside a tag.  `square` says that brackets
are lists, `afterSeparator` that the token before is a separator. -/
def readToken (square afterSeparator : Bool) (cs : Text) : Option Reading :=
  fixed ['{', '{', '{', '{'] .rawOpener cs
    <|> fixed ['}', '}', '}', '}'] .rawCloser cs
    <|> opener cs
    <|> closer cs
    <|> fixed ['('] .parenOpen cs
    <|> fixed [')'] .parenClose cs
    <|> fixed ['='] .equals cs
    <|> dots cs
    <|> quoted cs
    <|> fixed ['@'] .data cs
    <|> keyword ['t', 'r', 'u', 'e'] (.boolean true) square cs
    <|> keyword ['f', 'a', 'l', 's', 'e'] (.boolean false) square cs
    <|> keyword ['u', 'n', 'd', 'e', 'f', 'i', 'n', 'e', 'd'] .undefined square cs
    <|> keyword ['n', 'u', 'l', 'l'] .null square cs
    <|> number square cs
    <|> blockParams cs
    <|> fixed ['|'] .paramsClose cs
    <|> arrayDelimiter square afterSeparator cs
    <|> ident square cs
    <|> bracketIdent cs

end Reading
end Stache
