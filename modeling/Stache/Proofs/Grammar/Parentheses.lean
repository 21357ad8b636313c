import Stache.Proofs.Grammar.Nodes
import Stache.Proofs.Grammar.Follows

/-!
# What a parenthesis begins

An opening parenthesis begins an expression: a hash, a call, or a path that goes on from a call.
So wherever one stands among the tokens of a template, some tokens from there on write an
expression, and no token behind them goes on with it.  The tree has this expression in it, unless
it stands in a closing tag, which the tree does not keep (`exists_of_parenOpen`).

`Opens` says this of the parentheses in a part of the tokens, and the lemmas follow the grammar.
What an expression is a part of is left open, as long as lists and hashes are built as what they
are.
-/

namespace Stache

/-- A part of a part is a part. -/
theorem Node.Within.trans {n m whole : Node} (h : n.Within m) (h' : m.Within whole) :
    n.Within whole := by
  induction h with
  | refl => exact h'
  | part hn _ ih => exact .part hn (ih h')

/-- What a walk comes to in a node is a part of it. -/
theorem Node.Within.of_ordered {n m : Node} (h : n ∈ m.ordered) : n.Within m :=
  .part (List.mem_append_left _ h) .refl

namespace Grammar

variable (g : Grammar)

/-- Every opening parenthesis in `ls`, with the tokens `after` behind them, begins an expression
with the property `P`. -/
def Opens (P : Expr → Prop) (after : List Token) (ls : List Lexeme) : Prop :=
  ∀ before s rest, ls = before ++ ⟨.parenOpen, s⟩ :: rest →
    ∃ own more e, ⟨.parenOpen, s⟩ :: rest = own ++ more ∧ g.WritesExpr own e ∧
      Fronts Token.endsExpr (tokensOf more ++ after) ∧ P e

variable {g} {P Q : Expr → Prop} {after : List Token} {ls ls' : List Lexeme} {l : Lexeme}
  {s : Span} {e : Expr}

namespace Opens

/-- A weaker property holds of what the parentheses begin. -/
theorem mono (h : g.Opens P after ls) (hPQ : ∀ e, P e → Q e) : g.Opens Q after ls := by
  intro before s rest hls
  obtain ⟨own, more, e, hrest, he, hends, hP⟩ := h before s rest hls
  exact ⟨own, more, e, hrest, he, hends, hPQ e hP⟩

theorem nil : g.Opens P after [] := by
  intro before s rest hls
  cases before <;> cases hls

/-- Another token in front opens no parenthesis. -/
theorem skip (hl : l.token ≠ .parenOpen) (h : g.Opens P after ls) : g.Opens P after (l :: ls) := by
  intro before s rest hls
  cases before with
  | nil =>
      obtain ⟨rfl, -⟩ := List.cons.inj hls
      exact absurd rfl hl
  | cons x before => exact h before s rest (List.cons.inj hls).2

/-- The parenthesis begins the expression that all the tokens write. -/
theorem begin (he : g.WritesExpr (⟨.parenOpen, s⟩ :: ls) e) (hP : P e)
    (hafter : Fronts Token.endsExpr after) (h : g.Opens P after ls) :
    g.Opens P after (⟨.parenOpen, s⟩ :: ls) := by
  intro before s' rest hls
  cases before with
  | nil =>
      obtain ⟨hl, rfl⟩ := List.cons.inj hls
      obtain rfl := (Lexeme.mk.inj hl).2
      exact ⟨_, [], e, (List.append_nil _).symm, he, hafter, hP⟩
  | cons x before => exact h before s' rest (List.cons.inj hls).2

/-- The parentheses of two lists are those of both, if the second list may stand behind
the first. -/
theorem append (h : g.Opens P (tokensOf ls' ++ after) ls) (h' : g.Opens P after ls') :
    g.Opens P after (ls ++ ls') := by
  intro before s rest hls
  rcases List.append_eq_append_iff.mp hls with ⟨front, rfl, hback⟩ | ⟨back, rfl, hback⟩
  · exact h' front s rest hback
  · cases back with
    | nil => exact h' [] s rest hback.symm
    | cons x back =>
        obtain ⟨rfl, rfl⟩ := List.cons.inj hback
        obtain ⟨own, more, e, hrest, he, hends, hP⟩ := h before s back rfl
        refine ⟨own, more ++ ls', e, ?_, he, ?_, hP⟩
        · rw [← List.append_assoc, ← hrest]
          rfl
        · rwa [tokensOf_append, List.append_assoc]

end Opens

/-! ## Inside of tags -/

variable {ns ns' : List Node}

variable (g) in
/-- The expression is a part of one of the nodes. -/
def Among (ns : List Node) (e : Expr) : Prop := g.Literal → ∃ n ∈ ns, (Node.expr e).Within n

theorem Among.self : g.Among [.expr e] e := fun _ => ⟨_, List.mem_singleton_self _, .refl⟩

/-- A part of a node is one of any node around it. -/
theorem Among.within (h : g.Among ns e)
    (hns : g.Literal → ∀ n ∈ ns, ∃ m ∈ ns', n.Within m) : g.Among ns' e := by
  intro hg
  obtain ⟨n, hn, hwithin⟩ := h hg
  obtain ⟨m, hm, hwithin'⟩ := hns hg n hn
  exact ⟨m, hm, hwithin.trans hwithin'⟩

theorem Among.subset (h : g.Among ns e) (hns : ns ⊆ ns') : g.Among ns' e :=
  h.within fun _ n hn => ⟨n, hns hn, .refl⟩

/-- A part of the parts of a node is one of the node. -/
theorem Among.part {m : Node} (h : g.Among ns e) (hns : g.Literal → ns ⊆ m.parts) :
    g.Among [m] e :=
  h.within fun hg _ hn => ⟨m, List.mem_singleton_self m, .part (hns hg hn) .refl⟩

theorem opens_tail {segments : List Segment} (h : WritesTail ls segments) :
    g.Opens P after ls := by
  induction h with
  | nil => exact .nil
  | cons _ ih => exact .skip nofun (.skip nofun ih)

/-- There is no parenthesis between the names of a path. -/
theorem opens_segments {segments : List Segment} (h : WritesSegments ls segments) :
    g.Opens P after ls := by
  cases h with
  | mk h => exact .skip nofun (opens_tail h)

/-- What stands in parentheses, with the rest of the expression that they begin. -/
theorem opens_parens {s' : Span} (he : g.WritesExpr (parens s ls s' ++ ls') e)
    (hafter : Fronts Token.endsExpr after)
    (h : g.Opens (g.Among ns) (.parenClose :: (tokensOf ls' ++ after)) ls)
    (hns : g.Literal → ∀ n ∈ ns, n.Within (.expr e)) (h' : g.Opens (g.Among [.expr e]) after ls') :
    g.Opens (g.Among [.expr e]) after (parens s ls s' ++ ls') := by
  have hinside : g.Opens (g.Among [.expr e]) (.parenClose :: (tokensOf ls' ++ after)) ls :=
    h.mono fun _ hamong => hamong.within fun hg n hn =>
      ⟨_, List.mem_singleton_self _, hns hg n hn⟩
  have hmore : g.Opens (g.Among [.expr e]) after (ls ++ (⟨.parenClose, s'⟩ :: ls')) :=
    hinside.append (.skip nofun h')
  have htokens : parens s ls s' ++ ls' = ⟨.parenOpen, s⟩ :: (ls ++ (⟨.parenClose, s'⟩ :: ls')) := by
    simp only [parens, List.cons_append, List.append_assoc, List.nil_append]
  rw [htokens] at he ⊢
  exact .begin he .self hafter hmore

/-- The first parenthesis begins the literal, the others its values. -/
theorem opens_hash {s' : Span} {pairs : List HashPair} (h : g.WritesPairs ls pairs)
    (hne : pairs ≠ []) (hafter : Fronts Token.endsExpr after)
    (hpairs : ∀ {after}, Fronts Token.endsCall after →
      g.Opens (g.Among (pairs.map .hashPair)) after ls) :
    g.Opens (g.Among [.expr (g.builder.hashLiteral ⟨pairs, g.builder.locate (g.extentOf ls)⟩
      (g.extentOf (parens s ls s')))]) after (parens s ls s') := by
  have hwhole := List.append_nil (parens s ls s')
  rw [← hwhole]
  refine opens_parens (by rw [hwhole]; exact .hash h hne) hafter (hpairs (.cons rfl))
    (fun hg n hn => ?_) .nil
  rw [hashLiteral_of_literal hg]
  exact .of_ordered hn

/-- The first parenthesis begins the call in parentheses, the others its parts. -/
theorem opens_sub {s' : Span} {called : Call} (h : g.WritesCall ls called)
    (hafter : Fronts Token.endsExpr after)
    (hcall : ∀ {after}, Fronts Token.endsCall after → g.Opens (g.Among called.nodes) after ls) :
    g.Opens (g.Among [.expr (.sub (g.subOf called (parens s ls s')))]) after (parens s ls s') := by
  have hwhole := List.append_nil (parens s ls s')
  rw [← hwhole]
  refine opens_parens (by rw [hwhole]; exact .sub h) hafter (hcall (.cons rfl))
    (fun _ n hn => ?_) .nil
  rw [hwhole]
  exact .of_ordered hn

/-- The first parenthesis begins the path, for its steps belong to the call in front of
them. -/
theorem opens_subPath {s' s'' : Span} {kind : Separator} {called : Call}
    {segments : List Segment} {p : Path} (h : g.WritesCall ls called)
    (hmore : WritesSegments ls' segments)
    (hpath : g.builder.path false (some (g.subOf called (parens s ls s'))) segments
      (g.extentOf (parens s ls s' ++ ⟨.separator kind, s''⟩ :: ls')) = .ok p)
    (hafter : Fronts Token.endsExpr after)
    (hcall : ∀ {after}, Fronts Token.endsCall after → g.Opens (g.Among called.nodes) after ls) :
    g.Opens (g.Among [.expr (.path p)]) after
      (parens s ls s' ++ ⟨.separator kind, s''⟩ :: ls') := by
  refine opens_parens (.subPath h hmore hpath) hafter (hcall (.cons rfl)) (fun _ n hn => ?_)
    (.skip nofun (opens_segments hmore))
  have hhead : Node.expr (.sub (g.subOf called (parens s ls s'))) ∈
      (Node.expr (.path p)).ordered := by
    rw [Node.ordered, headNodes_of_path hpath]
    exact List.mem_singleton_self _
  have hcalled : n.Within (.expr (.sub (g.subOf called (parens s ls s')))) := .of_ordered hn
  exact hcalled.trans (.of_ordered hhead)

/-- The parentheses in a list are those of its items. -/
theorem opens_array {s' : Span} {items : List Expr}
    (hitems : ∀ {after}, Fronts Token.endsExpr after →
      g.Opens (g.Among (items.map .expr)) after ls) :
    g.Opens (g.Among [.expr (g.builder.array items (g.extentOf (brackets s ls s')))]) after
      (brackets s ls s') := by
  have hinside : g.Opens (g.Among (items.map .expr)) ([.arrayClose] ++ after) ls :=
    hitems (.cons rfl)
  refine .skip nofun (.append (hinside.mono fun _ hamong => hamong.part fun hg n hn => ?_)
    (.skip nofun .nil))
  rw [array_of_literal hg]
  exact List.mem_append_left _ hn

/-- A pair is a part of the literal that holds it. -/
theorem exists_of_mem_pairs {pairs : List HashPair} {n : Node} (hn : n ∈ pairs.map .hashPair) :
    ∃ m ∈ (g.hashAt ls pairs).toList.map .hash, n.Within m := by
  cases pairs with
  | nil => cases hn
  | cons pair pairs => exact ⟨_, List.mem_singleton_self _, .of_ordered hn⟩

mutual

/-- Each parenthesis in an expression begins a part of it. -/
theorem opens_expr : ∀ {ls : List Lexeme} {e : Expr}, g.WritesExpr ls e →
    ∀ {after : List Token}, Fronts Token.endsExpr after → g.Opens (g.Among [.expr e]) after ls
  | _, _, .path h _, _, _ => opens_segments h
  | _, _, .data h _, _, _ => .skip nofun (opens_segments h)
  | _, _, .hash h hne, _, hafter => opens_hash h hne hafter (opens_pairs h)
  | _, _, .sub h, _, hafter => opens_sub h hafter (opens_call h)
  | _, _, .subPath h hmore hpath, _, hafter => opens_subPath h hmore hpath hafter (opens_call h)
  | _, _, .array h, _, _ => opens_array (opens_exprs h)
  | _, _, .string, _, _ | _, _, .number, _, _ | _, _, .boolean, _, _ | _, _, .undefined, _, _
  | _, _, .null, _, _ => .skip nofun .nil

/-- Each parenthesis in a call begins a part of it. -/
theorem opens_call : ∀ {ls : List Lexeme} {called : Call}, g.WritesCall ls called →
    ∀ {after : List Token}, Fronts Token.endsCall after → g.Opens (g.Among called.nodes) after ls
  | _, _, .mk hhead hparams hpairs, _, hafter => by
      have hends := (endsParams_pairs (derives_of_writesPairs hpairs) hafter).endsExpr
      refine .append ((opens_expr hhead ?_).mono fun _ hamong => hamong.subset ?_)
        (.append ((opens_exprs hparams hends).mono fun _ hamong => hamong.subset ?_)
          ((opens_pairs hpairs hafter).mono fun _ hamong => hamong.within fun _ n hn => ?_))
      · rw [tokensOf_append, List.append_assoc]
        exact fronts_exprs (derives_of_writesExprs hparams) hends
      · exact List.cons_subset_cons _ (List.nil_subset _)
      · exact List.subset_cons_of_subset _ (List.subset_append_left _ _)
      · obtain ⟨m, hm, hwithin⟩ := exists_of_mem_pairs hn
        exact ⟨m, List.mem_cons_of_mem _ (List.mem_append_right _ hm), hwithin⟩

/-- Each parenthesis among some arguments begins a part of one. -/
theorem opens_exprs : ∀ {ls : List Lexeme} {list : List Expr}, g.WritesExprs ls list →
    ∀ {after : List Token}, Fronts Token.endsExpr after →
      g.Opens (g.Among (list.map .expr)) after ls
  | _, _, .nil, _, _ => .nil
  | _, _, .cons he h, _, hafter => by
      refine .append ((opens_expr he ?_).mono fun _ hamong => hamong.subset ?_)
        ((opens_exprs h hafter).mono fun _ hamong => hamong.subset (List.subset_cons_self _ _))
      · exact fronts_exprs (derives_of_writesExprs h) hafter
      · exact List.cons_subset_cons _ (List.nil_subset _)

/-- Each parenthesis among named arguments begins a part of one. -/
theorem opens_pairs : ∀ {ls : List Lexeme} {pairs : List HashPair}, g.WritesPairs ls pairs →
    ∀ {after : List Token}, Fronts Token.endsCall after →
      g.Opens (g.Among (pairs.map .hashPair)) after ls
  | _, _, .nil, _, _ => .nil
  | _, _, .cons hvalue h, _, hafter => by
      refine .skip nofun (.skip nofun (.append
        ((opens_expr hvalue ?_).mono fun _ hamong => hamong.within fun _ n hn => ?_)
        ((opens_pairs h hafter).mono fun _ hamong => hamong.subset (List.subset_cons_self _ _))))
      · exact (endsParams_pairs (derives_of_writesPairs h) hafter).endsExpr
      · exact ⟨_, List.mem_cons_self, .of_ordered hn⟩

end

/-! ## Tags and blocks -/

variable (g) in
/-- The expression is a part of one of the nodes, or it stands in a closing tag among the
tokens. -/
def Kept (ls : List Lexeme) (ns : List Node) (e : Expr) : Prop :=
  g.Among ns e ∨ ∃ own tail closed, own <:+: ls ∧ g.WritesClosing own tail ∧
    tail.path = some closed ∧ g.Among [.expr closed] e

/-- What is kept of some tokens is kept of more of them. -/
theorem Kept.mono (h : g.Kept ls ns e) (hls : ls <:+: ls')
    (hns : ∀ n ∈ ns, ∃ m ∈ ns', n.Within m) : g.Kept ls' ns' e := by
  rcases h with h | ⟨own, tail, closed, hown, htail, hclosed, h⟩
  · exact .inl (h.within fun _ => hns)
  · exact .inr ⟨own, tail, closed, hown.trans hls, htail, hclosed, h⟩

theorem Opens.kept (h : g.Opens (g.Kept ls ns) after ls) (hls : ls <:+: ls')
    (hns : ∀ n ∈ ns, ∃ m ∈ ns', n.Within m) : g.Opens (g.Kept ls' ns') after ls :=
  h.mono fun _ hkept => hkept.mono hls hns

/-- The nodes of an else section.  The closing markers of a link change, but not its parts. -/
def sectionNodes : Option ElseSection → List Node
  | none => []
  | some s => if s.chained then s.program.nodes.flatMap Node.parts else s.program.nodes

/-- The first link of a chain keeps its parts when its closing markers are set. -/
theorem exists_of_closeChain_parts {p q : Program} {closing : Strip} {n : Node}
    (h : Builder.closeChain p closing = some q) (hn : n ∈ p.nodes.flatMap Node.parts) :
    n.Within (.program q) := by
  obtain ⟨m, hm, hn⟩ := List.mem_flatMap.mp hn
  rw [Program.nodes] at hm
  unfold Builder.closeChain at h
  split at h
  · next first rest hbody =>
      cases h
      rw [hbody, List.map_cons] at hm
      rcases List.mem_cons.mp hm with rfl | hm
      · exact .part (m := .statement (.block { first with closeStrip := closing })) hn
          (.of_ordered List.mem_cons_self)
      · exact .part hn (.of_ordered (List.mem_cons_of_mem _ hm))
  · cases h

/-- The nodes of an else section are parts of the section that the block gets. -/
theorem exists_of_sectionNodes {other : Option ElseSection} {decorator : Bool} {closing : Strip}
    {loc : Location} {inverse : Option Program} {n : Node}
    (h : Builder.inverseProgram decorator closing loc other = .ok inverse)
    (hn : n ∈ sectionNodes other) : ∃ q ∈ inverse.toList, n.Within (.program q) := by
  cases other with
  | none => cases hn
  | some s =>
      rw [sectionNodes] at hn
      cases hchained : s.chained with
      | true =>
          rw [hchained, if_pos rfl] at hn
          obtain ⟨q, hq, rfl⟩ := Builder.closeChain_of_inverseProgram hchained h
          exact ⟨q, List.mem_singleton_self q, exists_of_closeChain_parts hq hn⟩
      | false =>
          rw [hchained, if_neg Bool.false_ne_true] at hn
          obtain rfl := Builder.eq_of_inverseProgram hchained h
          exact ⟨_, List.mem_singleton_self _, .of_ordered hn⟩

/-- What a block is made of is in its parts. -/
theorem exists_part_of_block {head : BlockOpening} {body : List Statement}
    {other : Option ElseSection} {closing : Option BlockClosing} {inverted : Bool} {x : Extent}
    {s : Statement} {n : Node}
    (h : g.builder.block head (Builder.program body none) other closing inverted x = .ok s)
    (hn : n ∈ head.call.nodes ∨ n ∈ body.map .statement ∨ n ∈ sectionNodes other) :
    ∃ m ∈ (Node.statement s).parts, n.Within m := by
  obtain ⟨decorator, inverse, node, hinverse, hs, rfl⟩ := Builder.exists_of_block h
  have hsection {q : Program} (hq : q ∈ (Node.statement s).sections) (hn : n.Within (.program q)) :
      ∃ m ∈ (Node.statement s).parts, n.Within m :=
    ⟨_, List.mem_append_right _ (List.mem_map_of_mem hq), hn⟩
  rcases hn with hn | hn | hn
  · refine ⟨n, List.mem_append_left _ ?_, .refl⟩
    rcases hs with rfl | rfl <;> exact hn
  · refine hsection (q := { Builder.program body none with blockParams := head.blockParams }) ?_
      (.of_ordered hn)
    rcases hs with rfl | rfl <;> cases inverted <;>
      simp [Node.sections]
  · obtain ⟨q, hq, hwithin⟩ := exists_of_sectionNodes hinverse hn
    refine hsection ?_ hwithin
    rcases hs with rfl | rfl <;> cases inverted <;> simp [Node.sections, hq]

theorem opens_names {names : Option (List Text)} (h : WritesNames ls names) :
    g.Opens P after ls := by
  have hidents {ls : List Lexeme} {names : List Text} {after : List Token}
      (h : WritesIdents ls names) : g.Opens P after ls := by
    induction h with
    | nil => exact .nil
    | cons _ ih => exact .skip nofun ih
  cases h with
  | none => exact .nil
  | some h _ => exact .skip nofun (.append (hidents h) (.skip nofun .nil))

/-- The parentheses of an opening tag are those of its call. -/
theorem opens_opening {kind : Opener} {head : BlockOpening} (h : g.WritesOpening kind ls head) :
    g.Opens (g.Among head.call.nodes) after ls := by
  cases h with
  | mk hcall hnames _ =>
      refine .skip nofun (.append (.append (opens_call hcall ?_) (opens_names hnames))
        (.skip nofun .nil))
      cases hnames <;> exact .cons rfl

/-- A parenthesis in a closing tag begins a part of its name, of which no node is made. -/
theorem opens_closing {tail : BlockClosing} (h : g.WritesClosing ls tail) :
    g.Opens (g.Kept ls []) after ls := by
  have hown := h
  cases h with
  | mk h =>
      refine .skip nofun (.append ((opens_expr h (.cons rfl)).mono fun _ hamong => ?_)
        (.skip nofun .nil))
      exact .inr ⟨_, _, _, List.infix_rfl, hown, rfl, hamong⟩

/-- A call between two delimiters. -/
theorem opens_tag {t t' : Token} {s s' : Span} {called : Call} {n : Node}
    (h : g.WritesCall ls called) (ht : t ≠ .parenOpen) (ht' : t'.endsCall = true)
    (hne : t' ≠ .parenOpen) (hn : called.nodes ⊆ n.ordered) :
    g.Opens (g.Kept (⟨t, s⟩ :: (ls ++ [⟨t', s'⟩])) [n]) after (⟨t, s⟩ :: (ls ++ [⟨t', s'⟩])) := by
  refine .skip ht (.append ((opens_call h (.cons ht')).mono fun _ hamong => .inl ?_)
    (.skip hne .nil))
  exact hamong.part fun _ => List.Subset.trans hn (List.subset_append_left _ _)

theorem opens_contents {body : List Statement} (h : g.WritesContents ls body) :
    g.Opens P after ls := by
  induction h with
  | nil => exact .nil
  | cons _ ih => exact .skip nofun ih

/-- The parentheses of a mustache are those of its call. -/
theorem opens_mustache {t t' : Token} {s s' : Span} {opener : Text} {called : Call} {strip : Strip}
    {x : Extent} (h : g.WritesCall ls called) (ht : t ≠ .parenOpen) (ht' : t'.endsCall = true)
    (hne : t' ≠ .parenOpen) :
    g.Opens (g.Kept (⟨t, s⟩ :: (ls ++ [⟨t', s'⟩]))
      [.statement (g.builder.mustache opener called strip x)]) after
      (⟨t, s⟩ :: (ls ++ [⟨t', s'⟩])) := by
  refine opens_tag h ht ht' hne ?_
  obtain ⟨escaped, hm | hm⟩ := g.builder.exists_of_mustache opener called strip x <;> rw [hm] <;>
    exact List.Subset.refl _

/-- The parentheses of a raw block are those of its call, for its texts hold none. -/
theorem opens_rawBlock {s s' s'' : Span} {called : Call} {body : List Statement} {name : Text}
    {block : Statement} {x : Extent} (hcall : g.WritesCall ls called)
    (hbody : g.WritesContents ls' body)
    (hblock : g.builder.rawBlock called body name x = .ok block) :
    g.Opens (g.Kept (⟨.rawOpener, s⟩ ::
        (ls ++ ⟨.rawCloser, s'⟩ :: (ls' ++ [⟨.rawEnd name, s''⟩]))) [.statement block]) after
      (⟨.rawOpener, s⟩ :: (ls ++ ⟨.rawCloser, s'⟩ :: (ls' ++ [⟨.rawEnd name, s''⟩]))) := by
  obtain rfl := Builder.eq_of_rawBlock hblock
  refine .skip nofun (.append ?_ (.skip nofun (.append (opens_contents hbody) (.skip nofun .nil))))
  refine (opens_call hcall ?_).mono fun _ hamong => .inl ?_
  · exact .cons rfl
  · exact hamong.part fun _ => List.subset_append_left _ _

section Block

variable {s : Statement} {ls'' ls₃ : List Lexeme} {head : BlockOpening} {body : List Statement}
  {other : Option ElseSection} {tail : BlockClosing}

/-- The parts of a block, or of a link, that lie side by side. -/
theorem opens_parts {closing : Option BlockClosing} {inverted : Bool} {kind : Opener} {x : Extent}
    (hhead : g.WritesOpening kind ls head)
    (hbody : ∀ {after}, g.Opens (g.Kept ls' (body.map .statement)) after ls')
    (hother : ∀ {after}, g.Opens (g.Kept ls'' (sectionNodes other)) after ls'')
    (hblock : g.builder.block head (Builder.program body none) other closing inverted x = .ok s) :
    g.Opens (g.Kept (ls ++ (ls' ++ ls'')) (Node.statement s).parts) after
      (ls ++ (ls' ++ ls'')) := by
  refine .append ((opens_opening hhead).mono fun _ hamong => .inl (hamong.within fun _ n hn => ?_))
    (.append (hbody.kept ?_ fun n hn => ?_) (hother.kept ?_ fun n hn => ?_))
  · exact exists_part_of_block hblock (.inl hn)
  · exact ⟨ls, ls'', List.append_assoc ..⟩
  · exact exists_part_of_block hblock (.inr (.inl hn))
  · exact ⟨ls ++ ls', [], by simp⟩
  · exact exists_part_of_block hblock (.inr (.inr hn))

/-- What begins a part of the parts of a statement begins a part of the statement. -/
theorem Opens.kept_statement (h : g.Opens (g.Kept ls (Node.statement s).parts) after ls)
    (hls : ls <:+: ls') : g.Opens (g.Kept ls' [.statement s]) after ls :=
  h.kept hls fun _ hn => ⟨_, List.mem_singleton_self _, .part hn .refl⟩

/-- The parentheses of a block are those of its tags and its sections. -/
theorem opens_block {inverted : Bool} {x : Extent}
    (hhead : g.WritesOpening (if inverted then .inverse else .block) ls head)
    (hbody : ∀ {after}, g.Opens (g.Kept ls' (body.map .statement)) after ls')
    (hother : ∀ {after}, g.Opens (g.Kept ls'' (sectionNodes other)) after ls'')
    (htail : g.WritesClosing ls₃ tail)
    (hblock : g.builder.block head (Builder.program body none) other (some tail) inverted x =
      .ok s) :
    g.Opens (g.Kept (ls ++ (ls' ++ (ls'' ++ ls₃))) [.statement s]) after
      (ls ++ (ls' ++ (ls'' ++ ls₃))) := by
  have htokens : ls ++ (ls' ++ (ls'' ++ ls₃)) = ls ++ (ls' ++ ls'') ++ ls₃ := by
    simp only [List.append_assoc]
  rw [htokens]
  exact .append ((opens_parts hhead hbody hother hblock).kept_statement
      (List.prefix_append _ _).isInfix)
    ((opens_closing htail).kept (List.suffix_append _ _).isInfix nofun)

/-- The parentheses of a partial block are those of its tags and its section. -/
theorem opens_inclusionBlock {x : Extent} (hhead : g.WritesOpening .inclusionBlock ls head)
    (hbody : ∀ {after}, g.Opens (g.Kept ls' (body.map .statement)) after ls')
    (htail : g.WritesClosing ls'' tail)
    (hblock : g.builder.inclusionBlock head (Builder.program body none) tail x = .ok s) :
    g.Opens (g.Kept (ls ++ (ls' ++ ls'')) [.statement s]) after (ls ++ (ls' ++ ls'')) := by
  obtain rfl := Builder.eq_of_inclusionBlock hblock
  refine .append ((opens_opening hhead).mono fun _ hamong => .inl (hamong.part fun _ => ?_))
    (.append (hbody.kept ⟨ls, ls'', List.append_assoc ..⟩ fun n hn => ?_)
      ((opens_closing htail).kept ⟨ls ++ ls', [], by simp⟩ nofun))
  · exact List.subset_append_left _ _
  · refine ⟨_, List.mem_singleton_self _, .trans (m := .program (Builder.program body none))
      (.of_ordered hn) (.part ?_ .refl)⟩
    exact List.mem_append_right _ (List.mem_singleton_self _)

end Block

mutual

/-- **Each parenthesis among statements begins a part of one,** or it stands in a closing
tag. -/
theorem opens_statements : ∀ {ls : List Lexeme} {body : List Statement},
    g.WritesStatements ls body →
      ∀ {after : List Token}, g.Opens (g.Kept ls (body.map .statement)) after ls
  | _, _, .nil, _ => .nil
  | _, _, .cons hs h, _ => by
      refine .append ((opens_statement hs).kept (List.prefix_append _ _).isInfix fun n hn => ?_)
        ((opens_statements h).kept (List.suffix_append _ _).isInfix fun n hn => ?_)
      · exact ⟨n, List.mem_singleton.mp hn ▸ List.mem_cons_self, .refl⟩
      · exact ⟨n, List.mem_cons_of_mem _ hn, .refl⟩

/-- Each parenthesis in a statement begins a part of it, or it stands in a closing tag. -/
theorem opens_statement : ∀ {ls : List Lexeme} {s : Statement}, g.WritesStatement ls s →
    ∀ {after : List Token}, g.Opens (g.Kept ls [.statement s]) after ls
  | _, _, .content, _ | _, _, .comment, _ => .skip nofun .nil
  | _, _, .plain h, _ => opens_mustache h nofun rfl nofun
  | _, _, .unescaped h, _ => opens_mustache h nofun rfl nofun
  | _, _, .inclusion h, _ => opens_tag h nofun rfl nofun (List.Subset.refl _)
  | _, _, .rawBlock hcall hbody hblock, _ => opens_rawBlock hcall hbody hblock
  | _, _, .block hhead hbody hother htail hblock, _ =>
      opens_block hhead (opens_statements hbody) (opens_section hother) htail hblock
  | _, _, .inclusionBlock hhead hbody htail hblock, _ =>
      opens_inclusionBlock hhead (opens_statements hbody) htail hblock

/-- Each parenthesis in an else section begins a part of it, or it stands in a closing
tag. -/
theorem opens_section : ∀ {chains : Bool} {ls : List Lexeme} {other : Option ElseSection},
    g.WritesSection chains ls other →
      ∀ {after : List Token}, g.Opens (g.Kept ls (sectionNodes other)) after ls
  | _, _, _, .none, _ => .nil
  | _, _, _, .plain h, _ =>
      .skip nofun ((opens_statements h).kept (List.suffix_cons _ _).isInfix
        fun n hn => ⟨n, hn, .refl⟩)
  | _, _, _, .link hhead hbody hother hblock, _ =>
      (opens_parts hhead (opens_statements hbody) (opens_section hother) hblock).kept
        List.infix_rfl fun n hn =>
          ⟨n, List.mem_flatMap.mpr ⟨_, List.mem_singleton_self _, hn⟩, .refl⟩

end

/-- **An opening parenthesis begins an expression.**  From each one in a template on, some tokens
write an expression, no token behind them goes on with it, and it is in the tree or in a closing
tag. -/
theorem exists_of_parenOpen {p : Program} {before rest : List Lexeme} (h : g.WritesProgram ls p)
    (hls : ls = before ++ ⟨.parenOpen, s⟩ :: rest) :
    ∃ own more e, ⟨.parenOpen, s⟩ :: rest = own ++ more ∧ g.WritesExpr own e ∧
      Fronts Token.endsExpr (tokensOf more) ∧ g.Kept ls [.program p] e := by
  cases h with
  | mk h =>
      have hopens : g.Opens (g.Kept ls _) [] ls := opens_statements h
      obtain ⟨own, more, e, hrest, he, hends, hkept⟩ := hopens before s rest hls
      rw [List.append_nil] at hends
      refine ⟨own, more, e, hrest, he, hends, hkept.mono List.infix_rfl fun n hn => ?_⟩
      exact ⟨_, List.mem_singleton_self _, .of_ordered hn⟩

end Grammar
end Stache
