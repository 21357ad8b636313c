import Stache.Source.Position
import Stache.Text

/-!
# Tokens

A template is cut into tokens before its grammar is looked at.  Text between
tags is one token, and so are a comment and an else tag.  The delimiters of the
other tags are tokens of their own, with the parts of the call between them.

A delimiter keeps its spelling.  The `~` markers and the modifiers `*`, `{` and
`&` are read off it when the tree is built.
-/

namespace Stache

/-- What a tag opens. -/
inductive Opener where
  /-- A tag that writes a value: `{{`, `{{&` or `{{*`. -/
  | plain
  /-- A tag that writes a value unescaped: `{{{`. -/
  | unescaped
  /-- A block: `{{#` or `{{#*`. -/
  | block
  /-- The end of a block: `{{/`. -/
  | close
  /-- An inverted block: `{{^`. -/
  | inverse
  /-- The next link of an else chain: `{{else`. -/
  | chain
  /-- A partial: `{{>`. -/
  | inclusion
  /-- A partial with a body: `{{#>`. -/
  | inclusionBlock
deriving DecidableEq, Repr, Inhabited

/-- What stands between two segments of a path. -/
inductive Separator where
  /-- `.` -/
  | dot
  /-- `/` -/
  | slash
  /-- `.#`, in front of a private member. -/
  | member
deriving DecidableEq, Repr, Inhabited

/-- The spelling of a separator. -/
def Separator.text : Separator → Text
  | .dot => ['.']
  | .slash => ['/']
  | .member => ['.', '#']

/-- A token. -/
inductive Token where
  | content (text : Text)
  | comment (text : Text)
  | opener (kind : Opener) (text : Text)
  /-- A whole `{{^}}` or `{{else}}`. -/
  | elseTag (text : Text)
  /-- `}}` -/
  | closer (text : Text)
  /-- `}}}` -/
  | unescapedCloser (text : Text)
  /-- `{{{{` -/
  | rawOpener
  /-- `}}}}` -/
  | rawCloser
  /-- `{{{{/name}}}}` -/
  | rawEnd (name : Text)
  /-- `(` -/
  | parenOpen
  /-- `)` -/
  | parenClose
  /-- `[` as the start of a list. -/
  | arrayOpen
  /-- `]` -/
  | arrayClose
  /-- `as |` -/
  | paramsOpen
  /-- `|` -/
  | paramsClose
  /-- `=` -/
  | equals
  /-- `@` -/
  | data
  /-- What stands between two segments of a path. -/
  | separator (kind : Separator)
  /-- An identifier, with its brackets if it has them. -/
  | ident (text : Text)
  | string (value : Text)
  | number (text : Text)
  /-- `true` or `false`. -/
  | boolean (value : Bool)
  /-- `undefined` -/
  | undefined
  /-- `null` -/
  | null
deriving DecidableEq, Repr, Inhabited

namespace Token

/-- The token finishes a tag: text follows it. -/
def endsTag : Token → Bool
  | .closer _ | .unescapedCloser _ | .rawCloser | .rawEnd _ | .elseTag _ | .comment _ => true
  | _ => false

/-- The token separates two segments of a path. -/
def isSeparator : Token → Bool
  | .separator _ => true
  | _ => false

end Token

/-- A token and the bytes it covers. -/
structure Lexeme where
  token : Token
  span : Span
deriving DecidableEq, Repr, Inhabited

end Stache
