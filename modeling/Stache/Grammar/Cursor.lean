import Stache.Builder.Statement
import Stache.Source.Lines
import Stache.Token

/-!
# Reading tokens

The grammar reads a list of tokens from left to right and never goes back: one
token, or two in front of a named argument, tell what follows.  A `Cursor` is
the rest of the tokens, with the place of the token just read, where the
current production ends so far.

What a production returns holds a proof that the rest is short enough.  This is
what its recursion ends by.

A production that has read its first token is *committed*.  When it fails, the
report covers the tokens from there up to the one that does not fit.
-/

namespace Stache

/-- The rest of the tokens. -/
structure Cursor where
  /-- The place of the token just read. -/
  last : Span
  /-- The tokens not yet read. -/
  rest : List Lexeme
deriving DecidableEq, Repr

/-- A result, and a rest of fewer than `n` tokens. -/
structure Parsed (α : Type) (n : Nat) where
  value : α
  cursor : Cursor
  /-- The rest is short. -/
  fits : cursor.rest.length < n

namespace Parsed

variable {α : Type} {k n : Nat}

theorem fits_after (h : k < n) (p : Parsed α (k + 1)) : p.cursor.rest.length < n :=
  Nat.lt_of_lt_of_le p.fits h

theorem fits_loose (p : Parsed α n) : p.cursor.rest.length < n + 1 :=
  Nat.lt_succ_of_lt p.fits

theorem fits_stay (c : Cursor) : c.rest.length < c.rest.length + 1 := Nat.lt_succ_self _

/-- What was read from the last `k` tokens, as read from more. -/
def after (h : k < n) (p : Parsed α (k + 1)) : Parsed α n := ⟨p.value, p.cursor, p.fits_after h⟩

/-- The same result under a weaker bound. -/
def loose (p : Parsed α n) : Parsed α (n + 1) := ⟨p.value, p.cursor, p.fits_loose⟩

/-- A result that takes no token. -/
def stay (c : Cursor) (a : α) : Parsed α (c.rest.length + 1) := ⟨a, c, fits_stay c⟩

end Parsed

/-! ## Refusals -/

/-- What the grammar asks for. -/
inductive Expected where
  | expression
  | identifier
  | closer
  | unescapedCloser
  | rawCloser
  | rawEnd
  | paramsClose
  | blockClose
  | parenClose
  | arrayClose
  | endOfInput
deriving DecidableEq, Repr

/-- What the grammar asks for, in words. -/
def Expected.describe : Expected → String
  | .expression => "expression"
  | .identifier => "identifier"
  | .closer => "`\x7d\x7d`"
  | .unescapedCloser => "`\x7d\x7d\x7d`"
  | .rawCloser => "`\x7d\x7d\x7d\x7d`"
  | .rawEnd => "raw block close"
  | .paramsClose => "`|`"
  | .blockClose => "block close"
  | .parenClose => "`)`"
  | .arrayClose => "`]`"
  | .endOfInput => "end of input"

/-- Why the grammar refuses the tokens. -/
inductive Refusal where
  | rejected (error : BuildError)
  /-- Something else was expected.  `found` is the token met, if the tokens did
  not end, and `since` the first token of the innermost committed production. -/
  | mismatch (expected : Expected) (since found : Option Span)
deriving DecidableEq, Repr

namespace Refusal

/-- The report of a refusal of `lexemes`, which are those of `text`.  Where the
tokens end, the last one is shown. -/
def diagnostic (r : Refusal) (text : Text) (source : Option String) (lexemes : List Lexeme) :
    Diagnostic :=
  match r with
  | .rejected e => e.diagnostic
  | .mismatch expected since (some found) =>
      .error .unexpectedToken ("unexpected token: expected " ++ expected.describe)
        (Source.location text source ((since.getD found).union found)) "unexpected token"
        (some "check tag syntax and nesting")
  | .mismatch expected _ none =>
      let fallback : Span := ⟨text.byteLength, text.byteLength⟩
      let last := (lexemes.getLast?.map Lexeme.span).getD fallback
      .error .incompleteInput ("incomplete input: expected " ++ expected.describe)
        (Source.location text source last) "input ends here"
        (some "close every open tag and block")

end Refusal

namespace Cursor

/-- The next token. -/
def peek? (c : Cursor) : Option Token := c.rest.head?.map Lexeme.token

/-- The place of the next token. -/
def here? (c : Cursor) : Option Span := c.rest.head?.map Lexeme.span

/-- The offset where the next token starts, or the last one ends. -/
def start (c : Cursor) : Nat := (c.here?.map Span.start).getD c.last.stop

theorem length_lt_length_cons (l : Lexeme) (r : List Lexeme) : r.length < (l :: r).length :=
  Nat.lt_succ_self _

/-- The next token, read. -/
def next? (c : Cursor) : Option (Parsed Lexeme c.rest.length) :=
  match c.rest with
  | [] => none
  | l :: r => some ⟨l, ⟨l.span, r⟩, length_lt_length_cons l r⟩

/-- The next token is none that is expected. -/
def refuse {α : Type} (c : Cursor) (expected : Expected) : Except Refusal α :=
  .error (.mismatch expected none c.here?)

/-- The next token, if `pick` takes it. -/
def expect {α : Type} (c : Cursor) (expected : Expected) (pick : Token → Option α) :
    Except Refusal (Parsed α c.rest.length) :=
  match c.next? with
  | none => c.refuse expected
  | some ⟨l, c₁, h₁⟩ =>
      match pick l.token with
      | some a => .ok ⟨a, c₁, h₁⟩
      | none => c.refuse expected

/-- A production that is committed from here on. -/
def commit {α : Type} (c : Cursor) (result : Except Refusal α) : Except Refusal α :=
  match result with
  | .error (.mismatch expected none found) => .error (.mismatch expected c.here? found)
  | other => other

/-- The next two tokens are a name and `=`. -/
def atPair (c : Cursor) : Bool :=
  match c.rest with
  | ⟨.ident _, _⟩ :: ⟨.equals, _⟩ :: _ => true
  | _ => false

end Cursor

/-- A node of the builder, or its error. -/
def Refusal.lift {α : Type} (result : Except BuildError α) : Except Refusal α :=
  match result with
  | .ok a => .ok a
  | .error e => .error (.rejected e)

namespace Token

/-- An expression can start with the token. -/
def startsExpr : Token → Bool
  | .ident _ | .data | .parenOpen | .arrayOpen | .string _ | .number _ | .boolean _ | .undefined
  | .null => true
  | _ => false

/-- A statement can start with the token. -/
def startsStatement : Token → Bool
  | .content _ | .comment _ | .rawOpener => true
  | .opener kind _ =>
      match kind with
      | .close | .chain => false
      | _ => true
  | _ => false

/-- The name in an identifier. -/
def ident? : Token → Option Text
  | .ident text => some text
  | _ => none

/-- The spelling of `}}`. -/
def closer? : Token → Option Text
  | .closer text => some text
  | _ => none

/-- The spelling of `}}}`. -/
def unescapedCloser? : Token → Option Text
  | .unescapedCloser text => some text
  | _ => none

/-- The name in the closer of a raw block. -/
def rawEnd? : Token → Option Text
  | .rawEnd name => some name
  | _ => none

/-- The spelling of the opening delimiter of a closing tag. -/
def blockClose? : Token → Option Text
  | .opener .close text => some text
  | _ => none

/-- The token is a given one. -/
def isToken? (t : Token) : Token → Option Unit
  | u => if u = t then some () else none

end Token

end Stache
