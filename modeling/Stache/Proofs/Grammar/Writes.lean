import Stache.Grammar.Statement
import Stache.Proofs.Grammar.Reads

/-!
# The grammar as a relation

`WritesExpr ls e` says that the tokens `ls` write the expression `e`, and the
other relations say the same for the other productions.  There is one
constructor for each alternative of the grammar, without any order among them
and without any look ahead.  The nodes are those that the builder makes, at the
places that the tokens cover.
-/

namespace Stache
namespace Grammar

/-! ## Paths -/

/-- `(separator ident)*` -/
inductive WritesTail : List Lexeme → List Segment → Prop where
  | nil : WritesTail [] []
  | cons {kind : Separator} {name : Text} {s s' : Span} {ls : List Lexeme} {more : List Segment}
      (h : WritesTail ls more) :
      WritesTail (⟨.separator kind, s⟩ :: ⟨.ident name, s'⟩ :: ls)
        (.ofIdent name (some kind) :: more)

/-- `ident (separator ident)*` -/
inductive WritesSegments : List Lexeme → List Segment → Prop where
  | mk {name : Text} {s : Span} {ls : List Lexeme} {more : List Segment}
      (h : WritesTail ls more) :
      WritesSegments (⟨.ident name, s⟩ :: ls) (.ofIdent name none :: more)

/-- `ident*` -/
inductive WritesIdents : List Lexeme → List Text → Prop where
  | nil : WritesIdents [] []
  | cons {name : Text} {s : Span} {ls : List Lexeme} {names : List Text}
      (h : WritesIdents ls names) :
      WritesIdents (⟨.ident name, s⟩ :: ls) (unbracket name :: names)

/-- ``[`as |` ident+ `|`]`` -/
inductive WritesNames : List Lexeme → Option (List Text) → Prop where
  | none : WritesNames [] none
  | some {s s' : Span} {ls : List Lexeme} {names : List Text} (h : WritesIdents ls names)
      (hne : names ≠ []) :
      WritesNames (⟨.paramsOpen, s⟩ :: (ls ++ [⟨.paramsClose, s'⟩])) (some names)

/-! ## Expressions -/

/-- Tokens in parentheses. -/
def parens (s : Span) (ls : List Lexeme) (s' : Span) : List Lexeme :=
  ⟨.parenOpen, s⟩ :: (ls ++ [⟨.parenClose, s'⟩])

/-- Tokens in brackets. -/
def brackets (s : Span) (ls : List Lexeme) (s' : Span) : List Lexeme :=
  ⟨.arrayOpen, s⟩ :: (ls ++ [⟨.arrayClose, s'⟩])

variable (g : Grammar)

/-- The place of some tokens. -/
def extentOf (ls : List Lexeme) : Extent := Source.extent g.text (covered ls)

/-- A call in parentheses, made of the tokens `ls`. -/
def subOf (called : Call) (ls : List Lexeme) : SubExpr :=
  g.builder.subExpr called (g.text.slice (covered ls).start (covered ls).stop) (g.extentOf ls)

/-- The hash of the pairs that `ls` writes, unless there are none. -/
def hashAt (ls : List Lexeme) (pairs : List HashPair) : Option Hash :=
  match pairs with
  | [] => none
  | _ => some ⟨pairs, g.builder.locate (g.extentOf ls)⟩

mutual

/-- One expression. -/
inductive WritesExpr : List Lexeme → Expr → Prop where
  | path {ls : List Lexeme} {segments : List Segment} {p : Path} (h : WritesSegments ls segments)
      (hpath : g.builder.path false none segments (g.extentOf ls) = .ok p) :
      WritesExpr ls (.path p)
  | data {s : Span} {ls : List Lexeme} {segments : List Segment} {p : Path}
      (h : WritesSegments ls segments)
      (hpath : g.builder.path true none segments (g.extentOf (⟨.data, s⟩ :: ls)) = .ok p) :
      WritesExpr (⟨.data, s⟩ :: ls) (.path p)
  | hash {s s' : Span} {ls : List Lexeme} {pairs : List HashPair} (h : WritesPairs ls pairs)
      (hne : pairs ≠ []) :
      WritesExpr (parens s ls s')
        (g.builder.hashLiteral ⟨pairs, g.builder.locate (g.extentOf ls)⟩
          (g.extentOf (parens s ls s')))
  | sub {s s' : Span} {ls : List Lexeme} {called : Call} (h : WritesCall ls called) :
      WritesExpr (parens s ls s') (.sub (g.subOf called (parens s ls s')))
  | subPath {s s' s'' : Span} {kind : Separator} {ls ls' : List Lexeme} {called : Call}
      {segments : List Segment} {p : Path} (h : WritesCall ls called)
      (hmore : WritesSegments ls' segments)
      (hpath : g.builder.path false (some (g.subOf called (parens s ls s'))) segments
        (g.extentOf (parens s ls s' ++ ⟨.separator kind, s''⟩ :: ls')) = .ok p) :
      WritesExpr (parens s ls s' ++ ⟨.separator kind, s''⟩ :: ls') (.path p)
  | array {s s' : Span} {ls : List Lexeme} {items : List Expr} (h : WritesExprs ls items) :
      WritesExpr (brackets s ls s') (g.builder.array items (g.extentOf (brackets s ls s')))
  | string {value : Text} {s : Span} :
      WritesExpr [⟨.string value, s⟩] (g.builder.string value (g.extentOf [⟨.string value, s⟩]))
  | number {text : Text} {s : Span} :
      WritesExpr [⟨.number text, s⟩] (g.builder.number text (g.extentOf [⟨.number text, s⟩]))
  | boolean {value : Bool} {s : Span} :
      WritesExpr [⟨.boolean value, s⟩]
        (g.builder.boolean value (g.extentOf [⟨.boolean value, s⟩]))
  | undefined {s : Span} :
      WritesExpr [⟨.undefined, s⟩] (g.builder.undefined (g.extentOf [⟨.undefined, s⟩]))
  | null {s : Span} : WritesExpr [⟨.null, s⟩] (g.builder.null (g.extentOf [⟨.null, s⟩]))

/-- `expr expr* pair*` -/
inductive WritesCall : List Lexeme → Call → Prop where
  | mk {ls ls' ls'' : List Lexeme} {head : Expr} {params : List Expr} {pairs : List HashPair}
      (hhead : WritesExpr ls head) (hparams : WritesExprs ls' params)
      (hpairs : WritesPairs ls'' pairs) :
      WritesCall (ls ++ (ls' ++ ls'')) ⟨head, params, g.hashAt ls'' pairs⟩

/-- `expr*` -/
inductive WritesExprs : List Lexeme → List Expr → Prop where
  | nil : WritesExprs [] []
  | cons {ls ls' : List Lexeme} {e : Expr} {more : List Expr} (he : WritesExpr ls e)
      (h : WritesExprs ls' more) : WritesExprs (ls ++ ls') (e :: more)

/-- ``(ident `=` expr)*`` -/
inductive WritesPairs : List Lexeme → List HashPair → Prop where
  | nil : WritesPairs [] []
  | cons {key : Text} {s s' : Span} {ls ls' : List Lexeme} {value : Expr} {more : List HashPair}
      (hvalue : WritesExpr ls value) (h : WritesPairs ls' more) :
      WritesPairs (⟨.ident key, s⟩ :: ⟨.equals, s'⟩ :: (ls ++ ls'))
        (⟨unbracket key, value,
          g.builder.locate (g.extentOf (⟨.ident key, s⟩ :: ⟨.equals, s'⟩ :: ls))⟩ :: more)

end

/-! ## Tags -/

/-- The tokens of a tag: its delimiters and what is between them. -/
def tag (kind : Opener) (opener : Text) (s : Span) (ls : List Lexeme) (closer : Text) (s' : Span) :
    List Lexeme := ⟨.opener kind opener, s⟩ :: (ls ++ [⟨.closer closer, s'⟩])

/-- The opening tag of a block, of a link of an else chain, or of a partial with
a body.  The last one names nothing. -/
inductive WritesOpening (kind : Opener) : List Lexeme → BlockOpening → Prop where
  | mk {opener closer : Text} {s s' : Span} {ls ls' : List Lexeme} {called : Call}
      {names : Option (List Text)} (hcall : g.WritesCall ls called) (hnames : WritesNames ls' names)
      (hkind : kind = .inclusionBlock → names = none) :
      WritesOpening kind (tag kind opener s (ls ++ ls') closer s')
        ⟨opener, called, names, .ofDelimiters opener closer⟩

/-- A closing tag. -/
inductive WritesClosing : List Lexeme → BlockClosing → Prop where
  | mk {opener closer : Text} {s s' : Span} {ls : List Lexeme} {path : Expr}
      (h : g.WritesExpr ls path) :
      WritesClosing (tag .close opener s ls closer s') ⟨some path, .ofDelimiters opener closer⟩

/-- The body of a raw block. -/
inductive WritesContents : List Lexeme → List Statement → Prop where
  | nil : WritesContents [] []
  | cons {text : Text} {s : Span} {ls : List Lexeme} {more : List Statement}
      (h : WritesContents ls more) :
      WritesContents (⟨.content text, s⟩ :: ls)
        (g.builder.content text (g.extentOf [⟨.content text, s⟩]) :: more)

/-! ## Statements -/

mutual

/-- `statement*` -/
inductive WritesStatements : List Lexeme → List Statement → Prop where
  | nil : WritesStatements [] []
  | cons {ls ls' : List Lexeme} {s : Statement} {more : List Statement}
      (hs : WritesStatement ls s) (h : WritesStatements ls' more) :
      WritesStatements (ls ++ ls') (s :: more)

/-- One statement. -/
inductive WritesStatement : List Lexeme → Statement → Prop where
  | content {text : Text} {s : Span} :
      WritesStatement [⟨.content text, s⟩]
        (g.builder.content text (g.extentOf [⟨.content text, s⟩]))
  | comment {text : Text} {s : Span} :
      WritesStatement [⟨.comment text, s⟩]
        (g.builder.comment text (g.extentOf [⟨.comment text, s⟩]))
  | plain {opener closer : Text} {s s' : Span} {ls : List Lexeme} {called : Call}
      (h : g.WritesCall ls called) :
      WritesStatement (tag .plain opener s ls closer s')
        (g.builder.mustache opener called (.ofDelimiters opener closer)
          (g.extentOf (tag .plain opener s ls closer s')))
  | unescaped {opener closer : Text} {s s' : Span} {ls : List Lexeme} {called : Call}
      (h : g.WritesCall ls called) :
      WritesStatement (⟨.opener .unescaped opener, s⟩ :: (ls ++ [⟨.unescapedCloser closer, s'⟩]))
        (g.builder.mustache opener called (.ofDelimiters opener closer)
          (g.extentOf (⟨.opener .unescaped opener, s⟩ :: (ls ++ [⟨.unescapedCloser closer, s'⟩]))))
  | inclusion {opener closer : Text} {s s' : Span} {ls : List Lexeme} {called : Call}
      (h : g.WritesCall ls called) :
      WritesStatement (tag .inclusion opener s ls closer s')
        (g.builder.inclusion called (.ofDelimiters opener closer)
          (g.extentOf (tag .inclusion opener s ls closer s')))
  | rawBlock {s s' s'' : Span} {ls ls' : List Lexeme} {called : Call} {body : List Statement}
      {name : Text} {block : Statement} (hcall : g.WritesCall ls called)
      (hbody : g.WritesContents ls' body)
      (hblock : g.builder.rawBlock called body name
        (g.extentOf (⟨.rawOpener, s⟩ ::
          (ls ++ ⟨.rawCloser, s'⟩ :: (ls' ++ [⟨.rawEnd name, s''⟩])))) = .ok block) :
      WritesStatement
        (⟨.rawOpener, s⟩ :: (ls ++ ⟨.rawCloser, s'⟩ :: (ls' ++ [⟨.rawEnd name, s''⟩]))) block
  | block {inverted : Bool} {ls ls' ls'' ls''' : List Lexeme} {head : BlockOpening}
      {body : List Statement} {other : Option ElseSection} {tail : BlockClosing}
      {block : Statement} (hhead : g.WritesOpening (if inverted then .inverse else .block) ls head)
      (hbody : WritesStatements ls' body) (hother : WritesSection (!inverted) ls'' other)
      (htail : g.WritesClosing ls''' tail)
      (hblock : g.builder.block head (Builder.program body none) other (some tail) inverted
        (g.extentOf (ls ++ (ls' ++ (ls'' ++ ls''')))) = .ok block) :
      WritesStatement (ls ++ (ls' ++ (ls'' ++ ls'''))) block
  | inclusionBlock {ls ls' ls'' : List Lexeme} {head : BlockOpening} {body : List Statement}
      {tail : BlockClosing} {block : Statement} (hhead : g.WritesOpening .inclusionBlock ls head)
      (hbody : WritesStatements ls' body) (htail : g.WritesClosing ls'' tail)
      (hblock : g.builder.inclusionBlock head (Builder.program body none) tail
        (g.extentOf (ls ++ (ls' ++ ls''))) = .ok block) :
      WritesStatement (ls ++ (ls' ++ ls'')) block

/-- The else section of a block, if it has one.  The flag says that it may be the
next link of a chain. -/
inductive WritesSection : Bool → List Lexeme → Option ElseSection → Prop where
  | none {chains : Bool} : WritesSection chains [] none
  | plain {chains : Bool} {text : Text} {s : Span} {ls : List Lexeme} {body : List Statement}
      (h : WritesStatements ls body) :
      WritesSection chains (⟨.elseTag text, s⟩ :: ls)
        (some ⟨.ofDelimiters text text, Builder.program body none, false⟩)
  | link {ls ls' ls'' : List Lexeme} {head : BlockOpening} {body : List Statement}
      {other : Option ElseSection} {block : Statement} (hhead : g.WritesOpening .chain ls head)
      (hbody : WritesStatements ls' body) (hother : WritesSection true ls'' other)
      (hblock : g.builder.block head (Builder.program body none) other
        (other.map fun s => (⟨none, s.strip⟩ : BlockClosing)) false
        (g.extentOf (ls ++ (ls' ++ ls''))) = .ok block) :
      WritesSection true (ls ++ (ls' ++ ls''))
        (some ⟨head.strip, Builder.chainedProgram block (Builder.program body none).loc, true⟩)

end

/-- A whole template. -/
inductive WritesProgram : List Lexeme → Program → Prop where
  | mk {ls : List Lexeme} {body : List Statement} (h : g.WritesStatements ls body) :
      WritesProgram ls (Builder.program body none)

end Grammar
end Stache
