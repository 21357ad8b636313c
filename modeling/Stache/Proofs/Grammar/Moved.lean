import Stache.Proofs.Grammar.Follows
import Stache.Proofs.Grammar.Paths
import Stache.Proofs.Token.Joined
import Stache.Proofs.Tree.Unlocated

/-!
# The same tokens in two places

Tokens that stand in two places of a template, with the same text under them, write the same
expression up to places (`moves_of_writesExpr`).  Each phrase ends at the same token in both,
since what follows it is none that could go on with it.  `Moves` says so of one phrase; each
alternative of the grammar has a lemma, and the induction over the derivation comes last.
-/

namespace Stache

/-- Two optional values with the same image are both there or both missing. -/
theorem cases_of_map_eq {α β : Type} {f : α → β} {a b : Option α} (h : a.map f = b.map f) :
    a = none ∧ b = none ∨ ∃ x y, a = some x ∧ b = some y ∧ f x = f y := by
  cases a with
  | none =>
      cases b with
      | none => exact .inl ⟨rfl, rfl⟩
      | some _ => cases h
  | some x =>
      cases b with
      | none => cases h
      | some y => exact .inr ⟨x, y, rfl, rfl, Option.some.inj h⟩

/-! ## Nodes without places -/

namespace Builder

variable {b : Builder} {head head' : Option SubExpr}

/-- Where a path starts does not depend on the place of the call at its head. -/
theorem pathStart_unlocated (data : Bool)
    (h : head'.map SubExpr.unlocated = head.map SubExpr.unlocated) :
    pathStart data head' = pathStart data head := by
  rcases cases_of_map_eq h with ⟨rfl, rfl⟩ | ⟨sub', sub, rfl, rfl, hsub⟩
  · rfl
  · have hwritten := congrArg SubExpr.written hsub
    rw [SubExpr.written_unlocated, SubExpr.written_unlocated] at hwritten
    rw [pathStart, pathStart, hwritten]

theorem pathHead_unlocated (names : List Text)
    (h : head'.map SubExpr.unlocated = head.map SubExpr.unlocated) :
    headUnlocated (pathHead head' names).1 = headUnlocated (pathHead head names).1 ∧
      (pathHead head' names).2 = (pathHead head names).2 := by
  rcases cases_of_map_eq h with ⟨rfl, rfl⟩ | ⟨sub', sub, rfl, rfl, hsub⟩
  · exact ⟨rfl, rfl⟩
  · exact ⟨congrArg (fun s => some (PathHead.sub s)) hsub, rfl⟩

/-- Heads that are equal up to places, with segments that come to the same, make paths that are
equal up to places. -/
theorem unlocated_of_path {data : Bool} {segments segments' : List Segment} {x x' : Extent}
    {p p' : Path} (hhead : head'.map SubExpr.unlocated = head.map SubExpr.unlocated)
    (hsegments : ∀ q, segments'.foldlM PathPrefix.add q = segments.foldlM PathPrefix.add q)
    (h : b.path data head segments x = .ok p) (h' : b.path data head' segments' x' = .ok p') :
    p'.unlocated = p.unlocated := by
  obtain ⟨q, hq, rfl⟩ := exists_of_path h
  obtain ⟨q', hq', rfl⟩ := exists_of_path h'
  rw [pathStart_unlocated data hhead, hsegments, hq] at hq'
  obtain rfl := Except.ok.inj hq'
  obtain ⟨hparts, htail⟩ := pathHead_unlocated q.names hhead
  rw [Path.unlocated, Path.unlocated, hparts, htail]

end Builder

namespace Grammar

variable {n : Nat} {g g' : Grammar} {ls ls' rest rest' own : List Lexeme}

/-- Named arguments are the same wherever their tokens stand. -/
theorem unlocated_hashAt {pairs pairs' : List HashPair}
    (h : pairsUnlocated pairs' = pairsUnlocated pairs) :
    hashUnlocated (g'.hashAt ls' pairs') = hashUnlocated (g.hashAt ls pairs) := by
  cases pairs with
  | nil =>
      cases pairs' with
      | nil => rfl
      | cons _ _ => cases h
  | cons _ _ =>
      cases pairs' with
      | nil => cases h
      | cons _ _ => exact congrArg (fun l => some (Hash.mk l .nowhere)) h

/-! ## Moved tokens -/

@[simp] theorem tokensOf_shift : tokensOf (ls.map (Lexeme.shift n)) = tokensOf ls :=
  List.map_map

/-- Moved tokens are the same tokens. -/
theorem tokens_of_moved (h : ls' = ls.map (Lexeme.shift n)) : tokensOf ls' = tokensOf ls := by
  rw [h, tokensOf_shift]

/-- Where the front of some tokens is moved, so is the rest. -/
theorem rest_of_moved (hls : ls' = ls.map (Lexeme.shift n))
    (h : ls' ++ rest' = (ls ++ rest).map (Lexeme.shift n)) :
    rest' = rest.map (Lexeme.shift n) := by
  rw [hls, List.map_append] at h
  exact List.append_cancel_left h

/-- What comes next comes next where it is moved to. -/
theorem fronts_of_moved {ok : Token → Bool} {l : Lexeme} (h : Fronts ok (tokensOf rest))
    (hmoved : l :: rest' = rest.map (Lexeme.shift n)) : ok l.token = true := by
  rw [← tokensOf_shift (n := n), ← hmoved] at h
  exact h.head

variable (g n) in
/-- Some tokens, and all pieces of them, have the same text under them where they are moved to. -/
def Copied (ls : List Lexeme) : Prop :=
  ∀ ⦃own⦄, own <:+: ls →
    g.text.slice (covered (own.map (Lexeme.shift n))).start
      (covered (own.map (Lexeme.shift n))).stop =
    g.text.slice (covered own).start (covered own).stop

/-- A piece of some tokens is moved with its text. -/
theorem Copied.of_infix (h : g.Copied n ls) (hown : own <:+: ls) : g.Copied n own :=
  fun _ hpiece => h (hpiece.trans hown)

/-- A call in parentheses is spelled the same where it is moved to. -/
theorem Copied.written_subOf {called called' : Call} (h : g.Copied n ls)
    (hls : ls' = ls.map (Lexeme.shift n)) :
    (g.subOf called' ls').written = (g.subOf called ls).written := by
  subst hls
  exact h (List.infix_refl ls)

theorem unlocated_subOf {called called' : Call} (hcalled : called'.unlocated = called.unlocated)
    (hwritten : (g'.subOf called' ls').written = (g.subOf called ls).written) :
    (g'.subOf called' ls').unlocated = (g.subOf called ls).unlocated :=
  congrArg₂ (SubExpr.mk · · .nowhere) hcalled hwritten

/-- The segments behind the first end at the same token in both places. -/
theorem moved_tail {segments segments' : List Segment} (h : WritesTail ls segments)
    (h' : WritesTail ls' segments')
    (hmoved : ls' ++ rest' = (ls ++ rest).map (Lexeme.shift n))
    (hrest : Fronts Token.endsExpr (tokensOf rest))
    (hrest' : Fronts Token.endsExpr (tokensOf rest')) :
    ls' = ls.map (Lexeme.shift n) ∧ segments' = segments := by
  induction h generalizing ls' segments' with
  | nil =>
      cases h' with
      | nil => exact ⟨rfl, rfl⟩
      | cons _ => cases fronts_of_moved hrest hmoved
  | cons _ ih =>
      cases h' with
      | nil =>
          rw [List.nil_append] at hmoved
          subst hmoved
          cases hrest'.head
      | cons h' =>
          obtain ⟨⟨⟩, hname⟩ := List.cons.inj hmoved
          obtain ⟨⟨⟩, hmore⟩ := List.cons.inj hname
          obtain ⟨rfl, rfl⟩ := ih h' hmore
          exact ⟨rfl, rfl⟩

/-- The segments of a path end at the same token in both places. -/
theorem moved_segments {segments segments' : List Segment} (h : WritesSegments ls segments)
    (h' : WritesSegments ls' segments')
    (hmoved : ls' ++ rest' = (ls ++ rest).map (Lexeme.shift n))
    (hrest : Fronts Token.endsExpr (tokensOf rest))
    (hrest' : Fronts Token.endsExpr (tokensOf rest')) :
    ls' = ls.map (Lexeme.shift n) ∧ segments' = segments := by
  cases h with
  | mk h =>
      cases h' with
      | mk h' =>
          obtain ⟨⟨⟩, hmore⟩ := List.cons.inj hmoved
          obtain ⟨rfl, rfl⟩ := moved_tail h h' hmore hrest hrest'
          exact ⟨rfl, rfl⟩

/-! ## Tokens between delimiters -/

/-- What stands behind a delimiter is moved with it. -/
theorem moved_inside {a b a' b' : Lexeme}
    (hmoved : a' :: (ls' ++ [b']) ++ rest' =
      (a :: (ls ++ [b]) ++ rest).map (Lexeme.shift n)) :
    ls' ++ b' :: rest' = (ls ++ b :: rest).map (Lexeme.shift n) := by
  have hmore := (List.cons.inj hmoved).2
  simpa only [List.append_eq, List.append_assoc, List.singleton_append] using hmore

/-- Tokens between delimiters are moved with the delimiters. -/
theorem moved_delimited {a b a' b' : Lexeme} (hls : ls' = ls.map (Lexeme.shift n))
    (hmoved : a' :: (ls' ++ [b']) ++ rest' =
      (a :: (ls ++ [b]) ++ rest).map (Lexeme.shift n)) :
    a' :: (ls' ++ [b']) = (a :: (ls ++ [b])).map (Lexeme.shift n) ∧
      rest' = rest.map (Lexeme.shift n) := by
  subst hls
  rw [List.map_append] at hmoved
  exact List.append_inj hmoved (by simp)

/-- What stands in parentheses is no hash and a call at once. -/
theorem not_pairs_of_call {pairs : List HashPair} {s₁ s₂ s₃ s₄ : Span}
    (hpairs : g.WritesPairs ls pairs) (hne : pairs ≠ []) (hcall : Derives .call (tokensOf ls'))
    (hsame : tokensOf (parens s₁ ls' s₂ ++ rest') = tokensOf (parens s₃ ls s₄ ++ rest)) :
    False := by
  have hinside := (List.cons.inj hsame).2
  rw [List.append_eq, List.append_eq, List.append_assoc, List.append_assoc] at hinside
  have hplain : startsPair (tokensOf (ls' ++ ([⟨.parenClose, s₂⟩] ++ rest'))) = false := by
    rw [tokensOf_append]
    exact startsPair_call hcall (.cons rfl)
  rw [tokensOf, hinside] at hplain
  cases hpairs with
  | nil => exact hne rfl
  | cons _ _ => cases hplain

/-- An argument does not end the arguments. -/
theorem not_endsParams_of_expr {ts rest : List Token} (h : Derives .expr ts)
    (hends : Fronts Token.endsExpr rest) : ¬EndsParams (ts ++ rest) := by
  rintro (hpair | hfront)
  · rw [startsPair_expr h hends] at hpair
    cases hpair
  · obtain ⟨t, ts', rfl, ht⟩ := exists_of_expr h
    have hcall : t.endsCall = true := hfront.head
    rw [Token.endsCall, ht, Bool.not_true, Bool.and_false] at hcall
    cases hcall

/-! ## Expressions -/

variable (n g) in
/-- Where the tokens `ls`, which write `a`, are moved to, they write the same there up to places,
as long as what follows them ends the phrase in both places. -/
def Moves {α : Type} (Writes : List Lexeme → α → Prop) (unlocated : α → α)
    (Ends : List Token → Prop) (ls : List Lexeme) (a : α) : Prop :=
  ∀ ⦃ls' rest rest' : List Lexeme⦄ ⦃a' : α⦄, Writes ls' a' → g.Copied n ls →
    ls' ++ rest' = (ls ++ rest).map (Lexeme.shift n) → Ends (tokensOf rest) →
    Ends (tokensOf rest') → ls' = ls.map (Lexeme.shift n) ∧ unlocated a' = unlocated a

variable (n g) in
/-- An expression, which a separator or an `=` would go on with. -/
def MovesExpr : List Lexeme → Expr → Prop :=
  Moves n g g.WritesExpr Expr.unlocated (Fronts Token.endsExpr)

variable (n g) in
/-- A call, which another expression would go on with as well. -/
def MovesCall : List Lexeme → Call → Prop :=
  Moves n g g.WritesCall Call.unlocated (Fronts Token.endsCall)

variable (n g) in
/-- Parameters, which a pair may follow, or the items of a list. -/
def MovesExprs : List Lexeme → List Expr → Prop :=
  Moves n g g.WritesExprs exprsUnlocated EndsParams

variable (n g) in
/-- Named arguments. -/
def MovesPairs : List Lexeme → List HashPair → Prop :=
  Moves n g g.WritesPairs pairsUnlocated (Fronts Token.endsCall)

/-- A path moves with its tokens. -/
theorem moves_path {segments : List Segment} {p : Path} (h : WritesSegments ls segments)
    (hpath : g.builder.path false none segments (g.extentOf ls) = .ok p) :
    g.MovesExpr n ls (.path p) := by
  intro ls' rest rest' e' h' hcopied hmoved hrest hrest'
  cases h' with
  | path h' hpath' =>
      obtain ⟨hls, rfl⟩ := moved_segments h h' hmoved hrest hrest'
      exact ⟨hls, congrArg Expr.path (Builder.unlocated_of_path rfl (fun _ => rfl) hpath hpath')⟩
  | _ =>
      cases h
      cases hmoved

/-- A path behind an `@` moves with its tokens. -/
theorem moves_data {s : Span} {segments : List Segment} {p : Path} (h : WritesSegments ls segments)
    (hpath : g.builder.path true none segments (g.extentOf (⟨.data, s⟩ :: ls)) = .ok p) :
    g.MovesExpr n (⟨.data, s⟩ :: ls) (.path p) := by
  intro ls' rest rest' e' h' hcopied hmoved hrest hrest'
  cases h' with
  | path h' _ =>
      cases h'
      cases hmoved
  | data h' hpath' =>
      obtain ⟨⟨⟩, hmore⟩ := List.cons.inj hmoved
      obtain ⟨rfl, rfl⟩ := moved_segments h h' hmore hrest hrest'
      exact ⟨rfl, congrArg Expr.path (Builder.unlocated_of_path rfl (fun _ => rfl) hpath hpath')⟩
  | _ => cases hmoved

/-- Named arguments in parentheses move with their tokens. -/
theorem moves_hash (hg : g.Literal) {s s₁ : Span} {pairs : List HashPair}
    (h : g.WritesPairs ls pairs) (hne : pairs ≠ []) (hpairs : g.MovesPairs n ls pairs) {x : Extent}
    {loc : Location} : g.MovesExpr n (parens s ls s₁) (g.builder.hashLiteral ⟨pairs, loc⟩ x) := by
  intro ls' rest rest' e' h' hcopied hmoved hrest hrest'
  cases h' with
  | path h' _ =>
      cases h'
      cases hmoved
  | hash h' _ =>
      obtain ⟨hls, hsame⟩ := hpairs h' (hcopied.of_infix ⟨[_], [_], rfl⟩) (moved_inside hmoved)
        (.cons rfl) (.cons rfl)
      rw [hashLiteral_of_literal hg, hashLiteral_of_literal hg]
      exact ⟨(moved_delimited hls hmoved).1, congrArg (fun l => Expr.hash l .nowhere) hsame⟩
  | sub h' =>
      exact (not_pairs_of_call h hne (derives_of_writesCall h') (tokens_of_moved hmoved)).elim
  | subPath h' _ _ =>
      rw [List.append_assoc] at hmoved
      exact (not_pairs_of_call h hne (derives_of_writesCall h') (tokens_of_moved hmoved)).elim
  | _ => cases hmoved

/-- A call in parentheses moves with its tokens, for no separator follows it in either
place. -/
theorem moves_sub {s s₁ : Span} {called : Call} (h : g.WritesCall ls called)
    (hcall : g.MovesCall n ls called) :
    g.MovesExpr n (parens s ls s₁) (.sub (g.subOf called (parens s ls s₁))) := by
  intro ls' rest rest' e' h' hcopied hmoved hrest hrest'
  have hinside := hcopied.of_infix ⟨[_], [_], rfl⟩
  cases h' with
  | path h' _ =>
      cases h'
      cases hmoved
  | hash h' hne' =>
      have hsame := (tokens_of_moved hmoved).symm
      exact (not_pairs_of_call h' hne' (derives_of_writesCall h) hsame).elim
  | sub h' =>
      obtain ⟨hls, hcalled⟩ := hcall h' hinside (moved_inside hmoved) (.cons rfl) (.cons rfl)
      obtain ⟨hparens, -⟩ := moved_delimited hls hmoved
      exact ⟨hparens, congrArg Expr.sub (unlocated_subOf hcalled (hcopied.written_subOf hparens))⟩
  | subPath h' _ _ =>
      rw [List.append_assoc] at hmoved
      obtain ⟨hls, -⟩ := hcall h' hinside (moved_inside hmoved) (.cons rfl) (.cons rfl)
      cases fronts_of_moved hrest (moved_delimited hls hmoved).2
  | _ => cases hmoved

/-- A path that starts with a call moves with its tokens. -/
theorem moves_subPath {s s₁ s₂ : Span} {kind : Separator} {own : List Lexeme} {called : Call}
    {segments : List Segment} {p : Path} (h : g.WritesCall ls called)
    (hcall : g.MovesCall n ls called) (hsegments : WritesSegments own segments)
    (hpath : g.builder.path false (some (g.subOf called (parens s ls s₁))) segments
      (g.extentOf (parens s ls s₁ ++ ⟨.separator kind, s₂⟩ :: own)) = .ok p) :
    g.MovesExpr n (parens s ls s₁ ++ ⟨.separator kind, s₂⟩ :: own) (.path p) := by
  intro ls' rest rest' e' h' hcopied hmoved hrest hrest'
  have hparens : g.Copied n (parens s ls s₁) := hcopied.of_infix (List.prefix_append _ _).isInfix
  have hinside := hparens.of_infix ⟨[_], [_], rfl⟩
  rw [List.append_assoc] at hmoved
  cases h' with
  | path h' _ =>
      cases h'
      cases hmoved
  | hash h' hne' =>
      have hsame := (tokens_of_moved hmoved).symm
      exact (not_pairs_of_call h' hne' (derives_of_writesCall h) hsame).elim
  | sub h' =>
      obtain ⟨hls, -⟩ := hcall h' hinside (moved_inside hmoved) (.cons rfl) (.cons rfl)
      obtain ⟨-, rfl⟩ := moved_delimited hls hmoved
      cases hrest'.head
  | subPath h' hsegments' hpath' =>
      rw [List.append_assoc] at hmoved
      obtain ⟨hls, hcalled⟩ := hcall h' hinside (moved_inside hmoved) (.cons rfl) (.cons rfl)
      obtain ⟨hfront, hbehind⟩ : parens _ _ _ = (parens s ls s₁).map (Lexeme.shift n) ∧ _ :=
        moved_delimited hls hmoved
      obtain ⟨⟨⟩, hmore⟩ := List.cons.inj hbehind
      obtain ⟨rfl, rfl⟩ := moved_segments hsegments hsegments' hmore hrest hrest'
      have hsub := congrArg some (unlocated_subOf hcalled (hparens.written_subOf hfront))
      rw [← Option.map_some, ← Option.map_some] at hsub
      refine ⟨?_, congrArg Expr.path
        (Builder.unlocated_of_path hsub (fun _ => rfl) hpath hpath')⟩
      rw [List.map_append, ← hfront]
      rfl
  | _ => cases hmoved

/-- A list in brackets moves with its tokens. -/
theorem moves_array (hg : g.Literal) {s s₁ : Span} {items : List Expr}
    (hitems : g.MovesExprs n ls items) {x : Extent} :
    g.MovesExpr n (brackets s ls s₁) (g.builder.array items x) := by
  intro ls' rest rest' e' h' hcopied hmoved hrest hrest'
  cases h' with
  | path h' _ =>
      cases h'
      cases hmoved
  | array h' =>
      obtain ⟨hls, hsame⟩ := hitems h' (hcopied.of_infix ⟨[_], [_], rfl⟩) (moved_inside hmoved)
        (.inr (.cons rfl)) (.inr (.cons rfl))
      rw [array_of_literal hg, array_of_literal hg]
      exact ⟨(moved_delimited hls hmoved).1, congrArg (fun l => Expr.array l .nowhere) hsame⟩
  | _ => cases hmoved

/-- A literal moves with its token. -/
theorem moves_literal {l : Lexeme} {e : Expr} (hl : l.token.isLiteral = true)
    (h : g.WritesExpr [l] e) : g.MovesExpr n [l] e := by
  intro ls' rest rest' e' h' hcopied hmoved hrest hrest'
  generalize hls : [l] = own at h
  cases h with
  | string | number | boolean | undefined | null =>
      cases hls
      cases h' with
      | path h' _ =>
          cases h'
          cases hmoved
      | string | number | boolean | undefined | null =>
          rcases List.cons.inj hmoved with ⟨⟨⟩, -⟩ <;> exact ⟨rfl, rfl⟩
      | _ => cases hmoved
  | path h _ =>
      cases h
      cases hls
      cases hl
  | _ =>
      obtain ⟨rfl, -⟩ := List.cons.inj hls
      cases hl

/-! ## Calls -/

/-- A call moves with its tokens, part by part. -/
theorem moves_call {own₁ own₂ own₃ : List Lexeme} {head : Expr} {params : List Expr}
    {pairs : List HashPair} (hhead : g.MovesExpr n own₁ head)
    (hdparams : Derives .exprs (tokensOf own₂)) (hparams : g.MovesExprs n own₂ params)
    (hdpairs : Derives .pairs (tokensOf own₃)) (hpairs : g.MovesPairs n own₃ pairs) :
    g.MovesCall n (own₁ ++ (own₂ ++ own₃)) ⟨head, params, g.hashAt own₃ pairs⟩ := by
  intro ls' rest rest' called' h' hcopied hmoved hrest hrest'
  cases h' with
  | mk hhead' hparams' hpairs' =>
      have hends := endsParams_pairs hdpairs hrest
      have hends' := endsParams_pairs (derives_of_writesPairs hpairs') hrest'
      have hfront := fronts_exprs hdparams hends.endsExpr
      have hfront' := fronts_exprs (derives_of_writesExprs hparams') hends'.endsExpr
      simp only [← tokensOf_append] at hends hends' hfront hfront'
      rw [List.append_assoc, List.append_assoc, List.append_assoc, List.append_assoc] at hmoved
      obtain ⟨rfl, hsame⟩ := hhead hhead' (hcopied.of_infix (List.prefix_append _ _).isInfix)
        hmoved hfront hfront'
      have hbehind := rest_of_moved rfl hmoved
      obtain ⟨rfl, hsame'⟩ := hparams hparams'
        (hcopied.of_infix ⟨_, _, List.append_assoc _ _ _⟩) hbehind hends hends'
      obtain ⟨rfl, hsame''⟩ := hpairs hpairs'
        (hcopied.of_infix ⟨_, [], by rw [List.append_nil, List.append_assoc]⟩)
        (rest_of_moved rfl hbehind) hrest hrest'
      refine ⟨by simp only [List.map_append], ?_⟩
      rw [Call.unlocated, Call.unlocated, hsame, hsame', unlocated_hashAt hsame'']

theorem moves_exprsNil : g.MovesExprs n [] [] := by
  intro ls' rest rest' list' h' hcopied hmoved hrest hrest'
  cases h' with
  | nil => exact ⟨rfl, rfl⟩
  | cons he' h' =>
      have hends := fronts_exprs (derives_of_writesExprs h') hrest'.endsExpr
      have hsame := tokens_of_moved hmoved
      rw [List.nil_append, List.append_assoc, tokensOf_append, tokensOf_append] at hsame
      rw [← hsame] at hrest
      exact absurd hrest (not_endsParams_of_expr (derives_of_writesExpr he') hends)

/-- Arguments move one by one. -/
theorem moves_exprsCons {own own' : List Lexeme} {e : Expr} {more : List Expr}
    (hde : Derives .expr (tokensOf own)) (he : g.MovesExpr n own e)
    (hd : Derives .exprs (tokensOf own')) (hmore : g.MovesExprs n own' more) :
    g.MovesExprs n (own ++ own') (e :: more) := by
  intro ls' rest rest' list' h' hcopied hmoved hrest hrest'
  have hends := fronts_exprs hd hrest.endsExpr
  rw [List.append_assoc] at hmoved
  cases h' with
  | nil =>
      have hsame := tokens_of_moved hmoved
      rw [List.nil_append, tokensOf_append, tokensOf_append] at hsame
      rw [hsame] at hrest'
      exact absurd hrest' (not_endsParams_of_expr hde hends)
  | cons he' h' =>
      have hends' := fronts_exprs (derives_of_writesExprs h') hrest'.endsExpr
      rw [← tokensOf_append] at hends hends'
      rw [List.append_assoc] at hmoved
      obtain ⟨rfl, hsame⟩ := he he' (hcopied.of_infix (List.prefix_append _ _).isInfix) hmoved
        hends hends'
      obtain ⟨rfl, hsame'⟩ := hmore h' (hcopied.of_infix (List.suffix_append _ _).isInfix)
        (rest_of_moved rfl hmoved) hrest hrest'
      refine ⟨List.map_append.symm, ?_⟩
      rw [exprsUnlocated, exprsUnlocated, hsame, hsame']

theorem moves_pairsNil : g.MovesPairs n [] [] := by
  intro ls' rest rest' list' h' hcopied hmoved hrest hrest'
  cases h' with
  | nil => exact ⟨rfl, rfl⟩
  | cons _ _ => cases fronts_of_moved hrest hmoved

/-- Named arguments move one by one. -/
theorem moves_pairsCons {key : Text} {s s₁ : Span} {own own' : List Lexeme} {value : Expr}
    {more : List HashPair} {loc : Location} (hvalue : g.MovesExpr n own value)
    (hd : Derives .pairs (tokensOf own')) (hmore : g.MovesPairs n own' more) :
    g.MovesPairs n (⟨.ident key, s⟩ :: ⟨.equals, s₁⟩ :: (own ++ own'))
      (⟨unbracket key, value, loc⟩ :: more) := by
  intro ls' rest rest' list' h' hcopied hmoved hrest hrest'
  cases h' with
  | nil =>
      rw [List.nil_append] at hmoved
      subst hmoved
      cases hrest'.head
  | cons hvalue' h' =>
      have hends := (endsParams_pairs hd hrest).endsExpr
      have hends' := (endsParams_pairs (derives_of_writesPairs h') hrest').endsExpr
      rw [← tokensOf_append] at hends hends'
      obtain ⟨⟨⟩, hequals⟩ := List.cons.inj hmoved
      obtain ⟨⟨⟩, hbehind⟩ := List.cons.inj hequals
      rw [List.append_eq, List.append_eq, List.append_assoc, List.append_assoc] at hbehind
      obtain ⟨rfl, hsame⟩ := hvalue hvalue' (hcopied.of_infix ⟨[_, _], _, rfl⟩) hbehind hends hends'
      obtain ⟨rfl, hsame'⟩ := hmore h' (hcopied.of_infix ⟨_ :: _ :: _, [], List.append_nil _⟩)
        (rest_of_moved rfl hbehind) hrest hrest'
      refine ⟨?_, ?_⟩
      · simp only [List.map_cons, List.map_append]
        rfl
      · rw [pairsUnlocated, pairsUnlocated, HashPair.unlocated, HashPair.unlocated, hsame, hsame']

/-! ## All phrases -/

mutual

/-- **Moved tokens write the same expression.** -/
theorem moves_of_writesExpr (hg : g.Literal) : ∀ {ls : List Lexeme} {e : Expr},
    g.WritesExpr ls e → g.MovesExpr n ls e
  | _, _, .path h hpath => moves_path h hpath
  | _, _, .data h hpath => moves_data h hpath
  | _, _, .hash h hne => moves_hash hg h hne (moves_of_writesPairs hg h)
  | _, _, .sub h => moves_sub h (moves_of_writesCall hg h)
  | _, _, .subPath h hmore hpath => moves_subPath h (moves_of_writesCall hg h) hmore hpath
  | _, _, .array h => moves_array hg (moves_of_writesExprs hg h)
  | _, _, .string => moves_literal rfl .string
  | _, _, .number => moves_literal rfl .number
  | _, _, .boolean => moves_literal rfl .boolean
  | _, _, .undefined => moves_literal rfl .undefined
  | _, _, .null => moves_literal rfl .null

/-- **A call moves with its tokens.** -/
theorem moves_of_writesCall (hg : g.Literal) : ∀ {ls : List Lexeme} {called : Call},
    g.WritesCall ls called → g.MovesCall n ls called
  | _, _, .mk hhead hparams hpairs =>
      moves_call (moves_of_writesExpr hg hhead) (derives_of_writesExprs hparams)
        (moves_of_writesExprs hg hparams) (derives_of_writesPairs hpairs)
        (moves_of_writesPairs hg hpairs)

/-- Arguments move with their tokens. -/
theorem moves_of_writesExprs (hg : g.Literal) : ∀ {ls : List Lexeme} {list : List Expr},
    g.WritesExprs ls list → g.MovesExprs n ls list
  | _, _, .nil => moves_exprsNil
  | _, _, .cons he h =>
      moves_exprsCons (derives_of_writesExpr he) (moves_of_writesExpr hg he)
        (derives_of_writesExprs h) (moves_of_writesExprs hg h)

/-- Named arguments move with their tokens. -/
theorem moves_of_writesPairs (hg : g.Literal) : ∀ {ls : List Lexeme} {list : List HashPair},
    g.WritesPairs ls list → g.MovesPairs n ls list
  | _, _, .nil => moves_pairsNil
  | _, _, .cons hvalue h =>
      moves_pairsCons (moves_of_writesExpr hg hvalue) (derives_of_writesPairs h)
        (moves_of_writesPairs hg h)

end

end Grammar
end Stache
