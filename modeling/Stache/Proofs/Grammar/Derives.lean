import Stache.Proofs.Grammar.Sound

/-!
# The context-free grammar

`Derives` is the grammar of templates over tokens alone: no places, no nodes and
nothing that the builder checks.  Each phrase has one constructor for each of its
alternatives.  A derivation may split its tokens in any way; that the grammar
looks at one token only, or two in front of a named argument, plays no part here.

What writes a node derives the phrase of the node, so every accepted list of
tokens derives `statements`.
-/

namespace Stache

/-- The token is a literal. -/
def Token.isLiteral : Token → Bool
  | .string _ | .number _ | .boolean _ | .undefined | .null => true
  | _ => false

namespace Grammar

/-- What the grammar has rules for. -/
inductive Phrase where
  /-- `(separator ident)*` -/
  | tail
  /-- `ident (separator ident)*` -/
  | segments
  /-- One expression. -/
  | expr
  /-- `expr*` -/
  | exprs
  /-- ``(ident `=` expr)*`` -/
  | pairs
  /-- `expr expr* pair*` -/
  | call
  /-- `ident*` -/
  | idents
  /-- ``[`as |` ident+ `|`]`` -/
  | names
  /-- `content*` -/
  | contents
  /-- The opening tag of a block or of a link of an else chain. -/
  | opening (kind : Opener)
  /-- The closing tag of a block. -/
  | closing
  /-- One statement. -/
  | statement
  /-- `statement*`, which is also a whole template. -/
  | statements
  /-- The else section of a block, if it has one.  The flag says that it may be
  the next link of a chain. -/
  | elseSection (chains : Bool)

/-- The tokens derive the phrase. -/
inductive Derives : Phrase → List Token → Prop where
  | tailNil : Derives .tail []
  | tailCons {kind : Separator} {name : Text} {ts : List Token} (h : Derives .tail ts) :
      Derives .tail (.separator kind :: .ident name :: ts)
  | segments {name : Text} {ts : List Token} (h : Derives .tail ts) :
      Derives .segments (.ident name :: ts)
  | path {ts : List Token} (h : Derives .segments ts) : Derives .expr ts
  | data {ts : List Token} (h : Derives .segments ts) : Derives .expr (.data :: ts)
  | literal {t : Token} (h : t.isLiteral = true) : Derives .expr [t]
  | hash {ts : List Token} (h : Derives .pairs ts) (hne : ts ≠ []) :
      Derives .expr (.parenOpen :: (ts ++ [.parenClose]))
  | sub {ts : List Token} (h : Derives .call ts) :
      Derives .expr (.parenOpen :: (ts ++ [.parenClose]))
  | subPath {kind : Separator} {ts ts' : List Token} (h : Derives .call ts)
      (hmore : Derives .segments ts') :
      Derives .expr (.parenOpen :: (ts ++ .parenClose :: .separator kind :: ts'))
  | array {ts : List Token} (h : Derives .exprs ts) :
      Derives .expr (.arrayOpen :: (ts ++ [.arrayClose]))
  | exprsNil : Derives .exprs []
  | exprsCons {ts ts' : List Token} (he : Derives .expr ts) (h : Derives .exprs ts') :
      Derives .exprs (ts ++ ts')
  | pairsNil : Derives .pairs []
  | pairsCons {key : Text} {ts ts' : List Token} (he : Derives .expr ts) (h : Derives .pairs ts') :
      Derives .pairs (.ident key :: .equals :: (ts ++ ts'))
  | call {ts ts' ts'' : List Token} (hhead : Derives .expr ts) (hparams : Derives .exprs ts')
      (hpairs : Derives .pairs ts'') : Derives .call (ts ++ (ts' ++ ts''))
  | identsNil : Derives .idents []
  | identsCons {name : Text} {ts : List Token} (h : Derives .idents ts) :
      Derives .idents (.ident name :: ts)
  | namesNone : Derives .names []
  | namesSome {name : Text} {ts : List Token} (h : Derives .idents ts) :
      Derives .names (.paramsOpen :: .ident name :: (ts ++ [.paramsClose]))
  | contentsNil : Derives .contents []
  | contentsCons {text : Text} {ts : List Token} (h : Derives .contents ts) :
      Derives .contents (.content text :: ts)
  | opening {kind : Opener} {opener closer : Text} {ts ts' : List Token} (hcall : Derives .call ts)
      (hnames : Derives .names ts') :
      Derives (.opening kind) (.opener kind opener :: (ts ++ (ts' ++ [.closer closer])))
  | closing {opener closer : Text} {ts : List Token} (h : Derives .expr ts) :
      Derives .closing (.opener .close opener :: (ts ++ [.closer closer]))
  | content {text : Text} : Derives .statement [.content text]
  | comment {text : Text} : Derives .statement [.comment text]
  | plain {opener closer : Text} {ts : List Token} (h : Derives .call ts) :
      Derives .statement (.opener .plain opener :: (ts ++ [.closer closer]))
  | unescaped {opener closer : Text} {ts : List Token} (h : Derives .call ts) :
      Derives .statement (.opener .unescaped opener :: (ts ++ [.unescapedCloser closer]))
  | inclusion {opener closer : Text} {ts : List Token} (h : Derives .call ts) :
      Derives .statement (.opener .inclusion opener :: (ts ++ [.closer closer]))
  | inclusionBlock {opener closer : Text} {ts ts' ts'' : List Token} (hcall : Derives .call ts)
      (hbody : Derives .statements ts') (htail : Derives .closing ts'') :
      Derives .statement
        (.opener .inclusionBlock opener :: (ts ++ .closer closer :: (ts' ++ ts'')))
  | rawBlock {name : Text} {ts ts' : List Token} (hcall : Derives .call ts)
      (hbody : Derives .contents ts') :
      Derives .statement (.rawOpener :: (ts ++ .rawCloser :: (ts' ++ [.rawEnd name])))
  | block {ts ts' ts'' ts''' : List Token} (hhead : Derives (.opening .block) ts)
      (hbody : Derives .statements ts') (hother : Derives (.elseSection true) ts'')
      (htail : Derives .closing ts''') : Derives .statement (ts ++ (ts' ++ (ts'' ++ ts''')))
  | inverse {ts ts' ts'' ts''' : List Token} (hhead : Derives (.opening .inverse) ts)
      (hbody : Derives .statements ts') (hother : Derives (.elseSection false) ts'')
      (htail : Derives .closing ts''') : Derives .statement (ts ++ (ts' ++ (ts'' ++ ts''')))
  | statementsNil : Derives .statements []
  | statementsCons {ts ts' : List Token} (hs : Derives .statement ts)
      (h : Derives .statements ts') : Derives .statements (ts ++ ts')
  | sectionNone {chains : Bool} : Derives (.elseSection chains) []
  | sectionPlain {chains : Bool} {text : Text} {ts : List Token} (h : Derives .statements ts) :
      Derives (.elseSection chains) (.elseTag text :: ts)
  | sectionLink {ts ts' ts'' : List Token} (hhead : Derives (.opening .chain) ts)
      (hbody : Derives .statements ts') (hother : Derives (.elseSection true) ts'') :
      Derives (.elseSection true) (ts ++ (ts' ++ ts''))

/-! ## What writes a node derives its phrase -/

/-- The tokens without their places. -/
def tokensOf (ls : List Lexeme) : List Token := ls.map Lexeme.token

@[simp] theorem tokensOf_nil : tokensOf [] = [] := rfl

@[simp] theorem tokensOf_cons (l : Lexeme) (ls : List Lexeme) :
    tokensOf (l :: ls) = l.token :: tokensOf ls := rfl

@[simp] theorem tokensOf_append (ls ls' : List Lexeme) :
    tokensOf (ls ++ ls') = tokensOf ls ++ tokensOf ls' := List.map_append

variable {g : Grammar} {ls : List Lexeme}

theorem derives_of_writesTail {segments : List Segment} (h : WritesTail ls segments) :
    Derives .tail (tokensOf ls) := by
  induction h with
  | nil => exact .tailNil
  | cons _ ih => exact .tailCons ih

/-- What writes a path derives one. -/
theorem derives_of_writesSegments {segments : List Segment} (h : WritesSegments ls segments) :
    Derives .segments (tokensOf ls) := by
  cases h with
  | mk h => exact .segments (derives_of_writesTail h)

theorem derives_of_writesIdents {names : List Text} (h : WritesIdents ls names) :
    Derives .idents (tokensOf ls) := by
  induction h with
  | nil => exact .identsNil
  | cons _ ih => exact .identsCons ih

/-- What writes block parameters derives them. -/
theorem derives_of_writesNames {names : Option (List Text)} (h : WritesNames ls names) :
    Derives .names (tokensOf ls) := by
  cases h with
  | none => exact .namesNone
  | some h hne =>
      cases h with
      | nil => exact absurd rfl hne
      | cons h =>
          simp only [List.cons_append, tokensOf_cons, tokensOf_append, tokensOf_nil]
          exact .namesSome (derives_of_writesIdents h)

mutual

/-- **What writes an expression derives one.** -/
theorem derives_of_writesExpr : ∀ {ls : List Lexeme} {e : Expr},
    g.WritesExpr ls e → Derives .expr (tokensOf ls)
  | _, _, .path h _ => .path (derives_of_writesSegments h)
  | _, _, .data h _ => .data (derives_of_writesSegments h)
  | _, _, .hash h hne => by
      have hpairs := derives_of_writesPairs h
      simp only [parens, tokensOf_cons, tokensOf_append, tokensOf_nil]
      refine .hash hpairs fun hnil => ne_nil_of_writesPairs h hne ?_
      exact List.map_eq_nil_iff.mp hnil
  | _, _, .sub h => by
      simp only [parens, tokensOf_cons, tokensOf_append, tokensOf_nil]
      exact .sub (derives_of_writesCall h)
  | _, _, .subPath h hmore _ => by
      simp only [parens, tokensOf_cons, tokensOf_append, List.cons_append, List.append_assoc,
        List.nil_append]
      exact .subPath (derives_of_writesCall h) (derives_of_writesSegments hmore)
  | _, _, .array h => by
      simp only [brackets, tokensOf_cons, tokensOf_append, tokensOf_nil]
      exact .array (derives_of_writesExprs h)
  | _, _, .string | _, _, .number | _, _, .boolean | _, _, .undefined | _, _, .null => .literal rfl

/-- What writes a call derives one. -/
theorem derives_of_writesCall : ∀ {ls : List Lexeme} {called : Call},
    g.WritesCall ls called → Derives .call (tokensOf ls)
  | _, _, .mk hhead hparams hpairs => by
      simp only [tokensOf_append]
      exact .call (derives_of_writesExpr hhead) (derives_of_writesExprs hparams)
        (derives_of_writesPairs hpairs)

/-- What writes arguments derives them. -/
theorem derives_of_writesExprs : ∀ {ls : List Lexeme} {list : List Expr},
    g.WritesExprs ls list → Derives .exprs (tokensOf ls)
  | _, _, .nil => .exprsNil
  | _, _, .cons he h => by
      rw [tokensOf_append]
      exact .exprsCons (derives_of_writesExpr he) (derives_of_writesExprs h)

/-- What writes named arguments derives them. -/
theorem derives_of_writesPairs : ∀ {ls : List Lexeme} {list : List HashPair},
    g.WritesPairs ls list → Derives .pairs (tokensOf ls)
  | _, _, .nil => .pairsNil
  | _, _, .cons he h => by
      simp only [tokensOf_cons, tokensOf_append]
      exact .pairsCons (derives_of_writesExpr he) (derives_of_writesPairs h)

end

/-! ## Tags and statements -/

/-- The opening tag of a partial with a body names nothing. -/
theorem derives_of_writesOpening {kind : Opener} {head : BlockOpening}
    (h : g.WritesOpening kind ls head) : Derives (.opening kind) (tokensOf ls) := by
  cases h with
  | mk hcall hnames _ =>
      simp only [tag, tokensOf_cons, tokensOf_append, tokensOf_nil, List.append_assoc]
      exact .opening (derives_of_writesCall hcall) (derives_of_writesNames hnames)

/-- What writes a closing tag derives one. -/
theorem derives_of_writesClosing {tail : BlockClosing} (h : g.WritesClosing ls tail) :
    Derives .closing (tokensOf ls) := by
  cases h with
  | mk h =>
      simp only [tag, tokensOf_cons, tokensOf_append, tokensOf_nil]
      exact .closing (derives_of_writesExpr h)

theorem derives_of_writesContents {body : List Statement} (h : g.WritesContents ls body) :
    Derives .contents (tokensOf ls) := by
  induction h with
  | nil => exact .contentsNil
  | cons _ ih => exact .contentsCons ih

/-- A block of either kind, from its parts. -/
theorem derives_block {inverted : Bool} {ts ts' ts'' ts''' : List Token}
    (hhead : Derives (.opening (if inverted then .inverse else .block)) ts)
    (hbody : Derives .statements ts') (hother : Derives (.elseSection (!inverted)) ts'')
    (htail : Derives .closing ts''') : Derives .statement (ts ++ (ts' ++ (ts'' ++ ts'''))) := by
  cases inverted with
  | false => exact .block hhead hbody hother htail
  | true => exact .inverse hhead hbody hother htail

/-- A partial with a body, from its parts. -/
theorem derives_inclusionBlock {head : BlockOpening} (h : g.WritesOpening .inclusionBlock ls head)
    {ts ts' : List Token} (hbody : Derives .statements ts) (htail : Derives .closing ts') :
    Derives .statement (tokensOf ls ++ (ts ++ ts')) := by
  cases h with
  | mk hcall hnames hkind =>
      obtain rfl := hkind rfl
      cases hnames
      simp only [tag, tokensOf_cons, tokensOf_append, tokensOf_nil, List.append_nil,
        List.cons_append, List.append_assoc, List.nil_append]
      exact .inclusionBlock (derives_of_writesCall hcall) hbody htail

mutual

/-- **What writes statements derives them.** -/
theorem derives_of_writesStatements : ∀ {ls : List Lexeme} {body : List Statement},
    g.WritesStatements ls body → Derives .statements (tokensOf ls)
  | _, _, .nil => .statementsNil
  | _, _, .cons hs h => by
      rw [tokensOf_append]
      exact .statementsCons (derives_of_writesStatement hs) (derives_of_writesStatements h)

/-- What writes a statement derives one. -/
theorem derives_of_writesStatement : ∀ {ls : List Lexeme} {s : Statement},
    g.WritesStatement ls s → Derives .statement (tokensOf ls)
  | _, _, .content => .content
  | _, _, .comment => .comment
  | _, _, .plain h => by
      simp only [tag, tokensOf_cons, tokensOf_append, tokensOf_nil]
      exact .plain (derives_of_writesCall h)
  | _, _, .unescaped h => by
      simp only [tokensOf_cons, tokensOf_append, tokensOf_nil]
      exact .unescaped (derives_of_writesCall h)
  | _, _, .inclusion h => by
      simp only [tag, tokensOf_cons, tokensOf_append, tokensOf_nil]
      exact .inclusion (derives_of_writesCall h)
  | _, _, .rawBlock hcall hbody _ => by
      simp only [tokensOf_cons, tokensOf_append, tokensOf_nil]
      exact .rawBlock (derives_of_writesCall hcall) (derives_of_writesContents hbody)
  | _, _, .block hhead hbody hother htail _ => by
      simp only [tokensOf_append]
      exact derives_block (derives_of_writesOpening hhead) (derives_of_writesStatements hbody)
        (derives_of_writesSection hother) (derives_of_writesClosing htail)
  | _, _, .inclusionBlock hhead hbody htail _ => by
      simp only [tokensOf_append]
      exact derives_inclusionBlock hhead (derives_of_writesStatements hbody)
        (derives_of_writesClosing htail)

/-- What writes an else section derives one, with links only where they are allowed. -/
theorem derives_of_writesSection : ∀ {chains : Bool} {ls : List Lexeme}
    {other : Option ElseSection}, g.WritesSection chains ls other →
    Derives (.elseSection chains) (tokensOf ls)
  | _, _, _, .none => .sectionNone
  | _, _, _, .plain h => .sectionPlain (derives_of_writesStatements h)
  | _, _, _, .link hhead hbody hother _ => by
      simp only [tokensOf_append]
      exact .sectionLink (derives_of_writesOpening hhead) (derives_of_writesStatements hbody)
        (derives_of_writesSection hother)

end

/-- The tokens of an accepted template derive `statements`. -/
theorem derives_of_program {p : Program} (h : g.program ls = .ok p) :
    Derives .statements (tokensOf ls) := by
  cases writesProgram_of_program h with
  | mk hbody => exact derives_of_writesStatements hbody

end Grammar
end Stache
