import Stache.Grammar.Cursor

/-!
# The grammar of calls

```
call     = expr expr* pair*
pair     = ident `=` expr
expr     = path | `@` path | literal
         | `(` pair+ `)`
         | `(` call `)` [separator path]
         | `[` expr* `]`
path     = ident (separator ident)*
```

An identifier before `=` starts a pair and not another expression.
-/

namespace Stache

/-- What the grammar works with: the builder and the text of the tokens. -/
structure Grammar where
  builder : Builder
  /-- The text that was cut into tokens. -/
  text : Text

namespace Grammar

/-- The place from an offset to the last token read. -/
def extent (g : Grammar) (start : Nat) (c : Cursor) : Extent :=
  Source.extent g.text ⟨start, c.last.stop⟩

/-- The same, with the name of the source. -/
def locate (g : Grammar) (start : Nat) (c : Cursor) : Location :=
  g.builder.locate (g.extent start c)

/-! ## Paths -/

/-- `(separator ident)*` -/
def moreSegments (c : Cursor) : Except Refusal (Parsed (List Segment) (c.rest.length + 1)) :=
  match c.next? with
  | some ⟨⟨.separator kind, _⟩, c₁, h₁⟩ => do
      let ⟨name, c₂, h₂⟩ ← c₁.commit (c₁.expect .identifier Token.ident?)
      let ⟨more, c₃, h₃⟩ ← moreSegments c₂
      return .loose (.after h₁ (.loose (.after h₂ ⟨.ofIdent name (some kind) :: more, c₃, h₃⟩)))
  | _ => .ok (.stay c [])
termination_by c.rest.length

/-- `ident (separator ident)*` -/
def segments (c : Cursor) : Except Refusal (Parsed (List Segment) c.rest.length) := do
  let ⟨name, c₁, h₁⟩ ← c.expect .identifier Token.ident?
  let ⟨more, c₂, h₂⟩ ← moreSegments c₁
  return .after h₁ ⟨.ofIdent name none :: more, c₂, h₂⟩

/-- The hash of a list of pairs, unless there are none. -/
def hashOf (g : Grammar) (start : Nat) (c : Cursor) (pairs : List HashPair) : Option Hash :=
  match pairs with
  | [] => none
  | _ => some ⟨pairs, g.locate start c⟩

/-- What follows a call in parentheses, which starts at `start` and ends at the
cursor: a separator and a path that goes on from it, or nothing. -/
def afterSub (g : Grammar) (start : Nat) (sub : SubExpr) (c : Cursor) :
    Except Refusal (Parsed Expr (c.rest.length + 1)) :=
  match c.next? with
  | some ⟨⟨.separator _, _⟩, c₁, h₁⟩ => do
      let ⟨more, c₂, h₂⟩ ← segments c₁
      let path ← Refusal.lift (g.builder.path false (some sub) more (g.extent start c₂))
      return .loose (.after h₁ (.loose ⟨.path path, c₂, h₂⟩))
  | _ => .ok (.stay c (.sub sub))

/-! ## Expressions -/

mutual

/-- One expression. -/
def expr (g : Grammar) (c : Cursor) : Except Refusal (Parsed Expr c.rest.length) :=
  match c.next? with
  | none => c.refuse .expression
  | some ⟨⟨token, span⟩, c₁, h₁⟩ =>
      let place := g.extent span.start c₁
      match token with
      | .ident name => do
          let ⟨more, c₂, h₂⟩ ← moreSegments c₁
          let path ← Refusal.lift
            (g.builder.path false none (.ofIdent name none :: more) (g.extent span.start c₂))
          return .after h₁ ⟨.path path, c₂, h₂⟩
      | .data => do
          let ⟨more, c₂, h₂⟩ ← c₁.commit (segments c₁)
          let path ← Refusal.lift (g.builder.path true none more (g.extent span.start c₂))
          return .after h₁ (.loose ⟨.path path, c₂, h₂⟩)
      | .parenOpen => c₁.commit do
          if c₁.atPair then
            let ⟨list, c₂, h₂⟩ ← pairs g c₁
            let ⟨_, c₃, h₃⟩ ← c₂.expect .parenClose (Token.isToken? .parenClose)
            let hash : Hash := ⟨list, g.locate c₁.start c₂⟩
            let literal := g.builder.hashLiteral hash (g.extent span.start c₃)
            return .after h₁ (.after h₂ (.loose ⟨literal, c₃, h₃⟩))
          else
            let ⟨called, c₂, h₂⟩ ← call g c₁
            let ⟨_, c₃, h₃⟩ ← c₂.expect .parenClose (Token.isToken? .parenClose)
            let written := g.text.slice span.start c₃.last.stop
            let sub := g.builder.subExpr called written (g.extent span.start c₃)
            let ⟨e, c₄, h₄⟩ ← afterSub g span.start sub c₃
            return .after h₁ (.loose (.after h₂ (.loose (.after h₃ ⟨e, c₄, h₄⟩))))
      | .arrayOpen => c₁.commit do
          let ⟨list, c₂, h₂⟩ ← items g c₁
          let ⟨_, c₃, h₃⟩ ← c₂.expect .arrayClose (Token.isToken? .arrayClose)
          let array := g.builder.array list (g.extent span.start c₃)
          return .after h₁ (.after h₂ (.loose ⟨array, c₃, h₃⟩))
      | .string value => .ok ⟨g.builder.string value place, c₁, h₁⟩
      | .number text => .ok ⟨g.builder.number text place, c₁, h₁⟩
      | .boolean value => .ok ⟨g.builder.boolean value place, c₁, h₁⟩
      | .undefined => .ok ⟨g.builder.undefined place, c₁, h₁⟩
      | .null => .ok ⟨g.builder.null place, c₁, h₁⟩
      | _ => c.refuse .expression
termination_by 2 * c.rest.length

/-- A head, its parameters and its named arguments. -/
def call (g : Grammar) (c : Cursor) : Except Refusal (Parsed Call c.rest.length) := do
  let ⟨head, c₁, h₁⟩ ← expr g c
  let ⟨list, c₂, h₂⟩ ← params g c₁
  let ⟨named, c₃, h₃⟩ ← pairs g c₂
  return .after h₁ (.after h₂ ⟨⟨head, list, g.hashOf c₂.start c₃ named⟩, c₃, h₃⟩)
termination_by 2 * c.rest.length + 1

/-- Expressions, up to a pair or what is no expression. -/
def params (g : Grammar) (c : Cursor) :
    Except Refusal (Parsed (List Expr) (c.rest.length + 1)) :=
  if !c.atPair && c.peek?.any Token.startsExpr then do
    let ⟨e, c₁, h₁⟩ ← expr g c
    let ⟨more, c₂, h₂⟩ ← params g c₁
    return .loose (.after h₁ ⟨e :: more, c₂, h₂⟩)
  else .ok (.stay c [])
termination_by 2 * c.rest.length + 1

/-- Expressions, up to what is no expression. -/
def items (g : Grammar) (c : Cursor) :
    Except Refusal (Parsed (List Expr) (c.rest.length + 1)) :=
  if c.peek?.any Token.startsExpr then do
    let ⟨e, c₁, h₁⟩ ← expr g c
    let ⟨more, c₂, h₂⟩ ← items g c₁
    return .loose (.after h₁ ⟨e :: more, c₂, h₂⟩)
  else .ok (.stay c [])
termination_by 2 * c.rest.length + 1

/-- Named arguments, up to what is none. -/
def pairs (g : Grammar) (c : Cursor) :
    Except Refusal (Parsed (List HashPair) (c.rest.length + 1)) :=
  match c.next? with
  | some ⟨⟨.ident key, span⟩, c₁, h₁⟩ =>
      match c₁.next? with
      | some ⟨⟨.equals, _⟩, c₂, h₂⟩ => do
          let ⟨value, c₃, h₃⟩ ← c₂.commit (expr g c₂)
          let ⟨more, c₄, h₄⟩ ← pairs g c₃
          let pair : HashPair := ⟨unbracket key, value, g.locate span.start c₃⟩
          return .loose (.after h₁ (.loose (.after h₂ (.loose (.after h₃ ⟨pair :: more, c₄, h₄⟩)))))
      | _ => .ok (.stay c [])
  | _ => .ok (.stay c [])
termination_by 2 * c.rest.length + 1

end

end Grammar
end Stache
