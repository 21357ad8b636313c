import Stache.Grammar.Expr

/-!
# The grammar of templates

```
program   = statement*
statement = content | comment
          | `{{` call `}}` | `{{{` call `}}}` | `{{>` call `}}`
          | `{{#` open program [section] end
          | `{{^` open program [inverse] end
          | `{{#>` call `}}` program end
          | `{{{{` call `}}}}` content* `{{{{/name}}}}`
open      = call [`as |` ident+ `|`] `}}`
section   = inverse | `{{else` open program [section]
inverse   = `{{else}}` program
end       = `{{/` expr `}}`
```

The next link of an else chain becomes a block of its own.  It has no closing
tag: the markers of the section after it close it, and those of the block
around the chain if it is the last.
-/

namespace Stache
namespace Grammar

/-! ## Tags -/

/-- `ident*` -/
def idents (c : Cursor) : Parsed (List Text) (c.rest.length + 1) :=
  match c.next? with
  | some ⟨⟨.ident name, _⟩, c₁, h₁⟩ =>
      let ⟨more, c₂, h₂⟩ := idents c₁
      .loose (.after h₁ ⟨unbracket name :: more, c₂, h₂⟩)
  | _ => .stay c []
termination_by c.rest.length

/-- The names of an opening tag, if it has any. -/
def blockParams (c : Cursor) : Except Refusal (Parsed (Option (List Text)) (c.rest.length + 1)) :=
  match c.next? with
  | some ⟨⟨.paramsOpen, _⟩, c₁, h₁⟩ => c₁.commit do
      let ⟨first, c₂, h₂⟩ ← c₁.expect .identifier Token.ident?
      let ⟨more, c₃, h₃⟩ := idents c₂
      let ⟨_, c₄, h₄⟩ ← c₃.expect .paramsClose (Token.isToken? .paramsClose)
      return .loose (.after h₁ (.loose (.after h₂ (.after h₃ (.loose
        ⟨some (unbracket first :: more), c₄, h₄⟩)))))
  | _ => .ok (.stay c none)

/-- The rest of the opening tag of a block, after its delimiter.  `named` says
that names may follow the call. -/
def opening (g : Grammar) (named : Bool) (opener : Text) (c : Cursor) :
    Except Refusal (Parsed BlockOpening c.rest.length) :=
  c.commit do
    let ⟨called, c₁, h₁⟩ ← call g c
    if named then
      let ⟨names, c₂, h₂⟩ ← blockParams c₁
      let ⟨closer, c₃, h₃⟩ ← c₂.expect .closer Token.closer?
      let head : BlockOpening := ⟨opener, called, names, .ofDelimiters opener closer⟩
      return .after h₁ (.after h₂ (.loose ⟨head, c₃, h₃⟩))
    else
      let ⟨closer, c₂, h₂⟩ ← c₁.expect .closer Token.closer?
      let head : BlockOpening := ⟨opener, called, none, .ofDelimiters opener closer⟩
      return .after h₁ (.loose ⟨head, c₂, h₂⟩)

/-- A closing tag. -/
def closing (g : Grammar) (c : Cursor) : Except Refusal (Parsed BlockClosing c.rest.length) := do
  let ⟨opener, c₁, h₁⟩ ← c.expect .blockClose Token.blockClose?
  c₁.commit do
    let ⟨path, c₂, h₂⟩ ← expr g c₁
    let ⟨closer, c₃, h₃⟩ ← c₂.expect .closer Token.closer?
    return .after h₁ (.loose (.after h₂ (.loose
      ⟨⟨some path, .ofDelimiters opener closer⟩, c₃, h₃⟩)))

/-- A tag that writes a value, after its delimiter. -/
def mustache (g : Grammar) (start : Nat) (unescaped : Bool) (opener : Text) (c : Cursor) :
    Except Refusal (Parsed Statement c.rest.length) :=
  c.commit do
    let ⟨called, c₁, h₁⟩ ← call g c
    let ⟨closer, c₂, h₂⟩ ←
      if unescaped then c₁.expect .unescapedCloser Token.unescapedCloser?
      else c₁.expect .closer Token.closer?
    let strip := Strip.ofDelimiters opener closer
    let tag := g.builder.mustache opener called strip (g.extent start c₂)
    return .after h₁ (.loose ⟨tag, c₂, h₂⟩)

/-- A partial, after its delimiter. -/
def inclusion (g : Grammar) (start : Nat) (opener : Text) (c : Cursor) :
    Except Refusal (Parsed Statement c.rest.length) :=
  c.commit do
    let ⟨called, c₁, h₁⟩ ← call g c
    let ⟨closer, c₂, h₂⟩ ← c₁.expect .closer Token.closer?
    let strip := Strip.ofDelimiters opener closer
    let tag := g.builder.inclusion called strip (g.extent start c₂)
    return .after h₁ (.loose ⟨tag, c₂, h₂⟩)

/-! ## Raw blocks -/

/-- `content*` -/
def contents (g : Grammar) (c : Cursor) : Parsed (List Statement) (c.rest.length + 1) :=
  match c.next? with
  | some ⟨⟨.content text, span⟩, c₁, h₁⟩ =>
      let ⟨more, c₂, h₂⟩ := contents g c₁
      .loose (.after h₁ ⟨g.builder.content text (g.extent span.start c₁) :: more, c₂, h₂⟩)
  | _ => .stay c []
termination_by c.rest.length

/-- A raw block, after its delimiter. -/
def rawBlock (g : Grammar) (start : Nat) (c : Cursor) :
    Except Refusal (Parsed Statement c.rest.length) :=
  c.commit do
    let ⟨called, c₁, h₁⟩ ← call g c
    let ⟨_, c₂, h₂⟩ ← c₁.expect .rawCloser (Token.isToken? .rawCloser)
    let ⟨body, c₃, h₃⟩ := contents g c₂
    let ⟨name, c₄, h₄⟩ ← c₃.expect .rawEnd Token.rawEnd?
    let block ← Refusal.lift (g.builder.rawBlock called body name (g.extent start c₄))
    return .after h₁ (.loose (.after h₂ (.after h₃ (.loose ⟨block, c₄, h₄⟩))))

/-! ## Statements -/

mutual

/-- Statements, up to what starts none. -/
def statements (g : Grammar) (c : Cursor) :
    Except Refusal (Parsed (List Statement) (c.rest.length + 1)) :=
  if c.peek?.any Token.startsStatement then do
    let ⟨s, c₁, h₁⟩ ← statement g c
    let ⟨more, c₂, h₂⟩ ← statements g c₁
    return .loose (.after h₁ ⟨s :: more, c₂, h₂⟩)
  else .ok ⟨[], c, by omega⟩
termination_by 2 * c.rest.length + 1

/-- One statement. -/
def statement (g : Grammar) (c : Cursor) : Except Refusal (Parsed Statement c.rest.length) :=
  match c.next? with
  | none => c.refuse .endOfInput
  | some ⟨⟨token, span⟩, c₁, h₁⟩ =>
      match token with
      | .content text => .ok ⟨g.builder.content text (g.extent span.start c₁), c₁, h₁⟩
      | .comment text => .ok ⟨g.builder.comment text (g.extent span.start c₁), c₁, h₁⟩
      | .opener kind opener =>
          match kind with
          | .plain | .unescaped => do
              let ⟨s, c₂, h₂⟩ ← mustache g span.start (kind = .unescaped) opener c₁
              return .after h₁ (.loose ⟨s, c₂, h₂⟩)
          | .inclusion => do
              let ⟨s, c₂, h₂⟩ ← inclusion g span.start opener c₁
              return .after h₁ (.loose ⟨s, c₂, h₂⟩)
          | .block | .inverse => do
              let inverted : Bool := kind = .inverse
              let ⟨head, c₂, h₂⟩ ← opening g true opener c₁
              c₂.commit do
                let ⟨body, c₃, h₃⟩ ← statements g c₂
                let ⟨other, c₄, h₄⟩ ← section? g (!inverted) c₃
                let ⟨tail, c₅, h₅⟩ ← closing g c₄
                let block ← Refusal.lift
                  (g.builder.block head (Builder.program body none) other (some tail) inverted
                    (g.extent span.start c₅))
                return .after h₁ (.loose (.after h₂ (.after h₃ (.after h₄ (.loose
                  ⟨block, c₅, h₅⟩)))))
          | .inclusionBlock => do
              let ⟨head, c₂, h₂⟩ ← opening g false opener c₁
              c₂.commit do
                let ⟨body, c₃, h₃⟩ ← statements g c₂
                let ⟨tail, c₄, h₄⟩ ← closing g c₃
                let block ← Refusal.lift
                  (g.builder.inclusionBlock head (Builder.program body none) tail
                    (g.extent span.start c₄))
                return .after h₁ (.loose (.after h₂ (.after h₃ (.loose ⟨block, c₄, h₄⟩))))
          | .close | .chain => c.refuse .endOfInput
      | .rawOpener => do
          let ⟨s, c₂, h₂⟩ ← rawBlock g span.start c₁
          return .after h₁ (.loose ⟨s, c₂, h₂⟩)
      | _ => c.refuse .endOfInput
termination_by 2 * c.rest.length

/-- The else section of a block, if it has one.  `chains` says that it may be
the next link of a chain. -/
def section? (g : Grammar) (chains : Bool) (c : Cursor) :
    Except Refusal (Parsed (Option ElseSection) (c.rest.length + 1)) :=
  match c.next? with
  | some ⟨⟨.elseTag text, _⟩, c₁, h₁⟩ => do
      let ⟨body, c₂, h₂⟩ ← statements g c₁
      let program := Builder.program body none
      return .loose (.after h₁ ⟨some ⟨.ofDelimiters text text, program, false⟩, c₂, h₂⟩)
  | some ⟨⟨.opener .chain opener, span⟩, c₁, h₁⟩ =>
      if chains then do
        let ⟨head, c₂, h₂⟩ ← opening g true opener c₁
        c₂.commit do
          let ⟨body, c₃, h₃⟩ ← statements g c₂
          let ⟨other, c₄, h₄⟩ ← section? g true c₃
          let program := Builder.program body none
          let tail := other.map fun s => (⟨none, s.strip⟩ : BlockClosing)
          let block ← Refusal.lift
            (g.builder.block head program other tail false (g.extent span.start c₄))
          let link : ElseSection := ⟨head.strip, Builder.chainedProgram block program.loc, true⟩
          return .loose (.after h₁ (.loose (.after h₂ (.after h₃ ⟨some link, c₄, h₄⟩))))
      else .ok (.stay c none)
  | _ => .ok (.stay c none)
termination_by 2 * c.rest.length

end

/-- The program that the tokens write. -/
def program (g : Grammar) (lexemes : List Lexeme) : Except Refusal Program := do
  let ⟨body, c, _⟩ ← statements g ⟨⟨0, 0⟩, lexemes⟩
  if c.rest.isEmpty then return Builder.program body none
  else c.commit (c.refuse .endOfInput)

/-- The program that the tokens write, or the report of what is wrong. -/
def parse (g : Grammar) (lexemes : List Lexeme) : Except Diagnostic Program :=
  match g.program lexemes with
  | .ok p => .ok p
  | .error refusal => .error (refusal.diagnostic g.text g.builder.source lexemes)

variable {g : Grammar} {lexemes : List Lexeme}

theorem parse_of_program {p : Program} (h : g.program lexemes = .ok p) :
    g.parse lexemes = .ok p := by
  rw [parse, h]

theorem program_of_parse {p : Program} (h : g.parse lexemes = .ok p) :
    g.program lexemes = .ok p := by
  rw [parse] at h
  split at h
  · next hprogram =>
      cases h
      exact hprogram
  · cases h

/-- What is reported is what the grammar refuses. -/
theorem exists_refusal_of_parse {d : Diagnostic} (h : g.parse lexemes = .error d) :
    ∃ r : Refusal, g.program lexemes = .error r ∧
      d = r.diagnostic g.text g.builder.source lexemes := by
  rw [parse] at h
  split at h
  · cases h
  · next r hprogram =>
      cases h
      exact ⟨r, hprogram, rfl⟩

end Grammar
end Stache
