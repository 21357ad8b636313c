import Stache.Proofs.Grammar.Meets

/-!
# Calls are read in full

`Complete` says for every phrase which tokens may follow it and that its
production then meets the derivation.  Each alternative of the grammar has a
lemma; those of paths, expressions and calls are here.
-/

namespace Stache
namespace Grammar

/-- What a phrase asks of its production. -/
def Complete (g : Grammar) : Phrase → List Token → Prop
  | .tail, ts => ∀ ⦃c : Cursor⦄ ⦃rest : List Token⦄, c.tokens = ts ++ rest →
      Fronts Token.endsExpr rest → Meets False rest (moreSegments c)
  | .segments, ts => ∀ ⦃c : Cursor⦄ ⦃rest : List Token⦄, c.tokens = ts ++ rest →
      Fronts Token.endsExpr rest → Meets False rest (Grammar.segments c)
  | .expr, ts => ∀ ⦃c : Cursor⦄ ⦃rest : List Token⦄, c.tokens = ts ++ rest →
      Fronts Token.endsExpr rest → Meets False rest (expr g c)
  | .exprs, ts => ∀ ⦃c : Cursor⦄ ⦃rest : List Token⦄, c.tokens = ts ++ rest →
      (EndsParams rest → Meets False rest (params g c)) ∧
        (Fronts Token.endsCall rest → Meets False rest (items g c))
  | .pairs, ts => ∀ ⦃c : Cursor⦄ ⦃rest : List Token⦄, c.tokens = ts ++ rest →
      Fronts Token.endsCall rest → Meets False rest (Grammar.pairs g c)
  | .call, ts => ∀ ⦃c : Cursor⦄ ⦃rest : List Token⦄, c.tokens = ts ++ rest →
      Fronts Token.endsCall rest → Meets False rest (call g c)
  | .idents, ts => ∀ ⦃c : Cursor⦄ ⦃rest : List Token⦄, c.tokens = ts ++ .paramsClose :: rest →
      (Grammar.idents c).cursor.tokens = .paramsClose :: rest
  | .names, ts => ∀ ⦃c : Cursor⦄ ⦃closer : Text⦄ ⦃rest : List Token⦄,
      c.tokens = ts ++ .closer closer :: rest →
      Meets False (.closer closer :: rest) (blockParams c)
  | .contents, ts => ∀ ⦃c : Cursor⦄ ⦃name : Text⦄ ⦃rest : List Token⦄,
      c.tokens = ts ++ .rawEnd name :: rest →
      (Grammar.contents g c).cursor.tokens = .rawEnd name :: rest
  | .opening kind, ts => ∃ opener ts', ts = .opener kind opener :: ts' ∧
      ∀ ⦃c : Cursor⦄ ⦃rest : List Token⦄, c.tokens = ts' ++ rest →
        Meets False rest (Grammar.opening g true opener c)
  | .closing, ts => ∀ ⦃c : Cursor⦄ ⦃rest : List Token⦄, c.tokens = ts ++ rest →
      Meets False rest (Grammar.closing g c)
  | .statement, ts => ∀ ⦃c : Cursor⦄ ⦃rest : List Token⦄, c.tokens = ts ++ rest →
      Meets (Starred ts) rest (Grammar.statement g c)
  | .statements, ts => ∀ ⦃c : Cursor⦄ ⦃rest : List Token⦄, c.tokens = ts ++ rest →
      Fronts Token.endsBody rest → Meets (Starred ts) rest (Grammar.statements g c)
  | .elseSection chains, ts => ∀ ⦃c : Cursor⦄ ⦃opener : Text⦄ ⦃rest : List Token⦄,
      c.tokens = ts ++ .opener .close opener :: rest →
      Meets (Starred ts) (.opener .close opener :: rest) (section? g chains c)

variable {g : Grammar} {c : Cursor} {ts ts' ts'' rest : List Token}

/-! ## Paths -/

theorem complete_tailNil : Complete g .tail [] := by
  intro c rest hc hrest
  rw [moreSegments]
  split
  · next hnext =>
      rw [List.nil_append, Cursor.tokens_of_next? hnext] at hc
      subst hc
      cases hrest.head
  · exact .ok hc

/-- A separator goes on with a path, and a name must follow. -/
theorem complete_tailCons {kind : Separator} {name : Text} (h : Complete g .tail ts) :
    Complete g .tail (.separator kind :: .ident name :: ts) := by
  intro c rest hc hrest
  obtain ⟨s, c₁, h₁, hnext, hc₁⟩ := Cursor.exists_next? hc
  rw [moreSegments]
  simp only [hnext]
  refine (meets_ident hc₁).commit.bind id ?_
  rintro ⟨_, c₂, _⟩ - hc₂
  refine (h hc₂ hrest).bind id ?_
  rintro ⟨_, c₃, _⟩ - hc₃
  exact .ok hc₃

/-- A path starts with a name. -/
theorem complete_segments {name : Text} (h : Complete g .tail ts) :
    Complete g .segments (.ident name :: ts) := by
  intro c rest hc hrest
  refine (meets_ident hc).bind id fun ⟨_, c₁, _⟩ _ hc₁ => ?_
  refine (h hc₁ hrest).bind id fun ⟨_, c₂, _⟩ _ hc₂ => ?_
  exact .ok hc₂

/-! ## Expressions -/

/-- The builder refuses a path for its names only. -/
theorem code_of_path {b : Builder} {data : Bool} {head : Option SubExpr} {segments : List Segment}
    {x : Extent} {e : BuildError} (h : b.path data head segments x = .error e) :
    e.code = .invalidPath := by
  unfold Builder.path at h
  dsimp only at h
  split at h
  · cases h
    rfl
  · cases h

/-- A path is read as far as it goes, or the builder refuses it. -/
theorem Meets.path {b : Builder} {data : Bool} {head : Option SubExpr} {segments : List Segment}
    {x : Extent} {n : Nat} {f : Path → Except Refusal (Parsed Expr n)}
    (hf : ∀ p, Meets False rest (f p)) :
    Meets False rest (Refusal.lift (b.path data head segments x) >>= f) := by
  refine Meets.lift (fun e he hcode => ?_) hf
  rw [code_of_path he] at hcode
  cases hcode

/-- A path is read, or refused as a whole. -/
theorem complete_path {name : Text} (h : Complete g .tail ts) :
    Complete g .expr (.ident name :: ts) := by
  intro c rest hc hrest
  obtain ⟨s, c₁, h₁, hnext, hc₁⟩ := Cursor.exists_next? hc
  rw [expr]
  simp only [hnext]
  refine (h hc₁ hrest).bind id fun ⟨_, c₂, _⟩ _ hc₂ => ?_
  exact .path fun p => .ok hc₂

/-- A path behind an `@` is read, or refused as a whole. -/
theorem complete_data (h : Complete g .segments ts) : Complete g .expr (.data :: ts) := by
  intro c rest hc hrest
  obtain ⟨s, c₁, h₁, hnext, hc₁⟩ := Cursor.exists_next? hc
  rw [expr]
  simp only [hnext]
  refine (h hc₁ hrest).commit.bind id fun ⟨_, c₂, _⟩ _ hc₂ => ?_
  exact .path fun p => .ok hc₂

theorem complete_literal {t : Token} (ht : t.isLiteral = true) : Complete g .expr [t] := by
  intro c rest hc hrest
  obtain ⟨s, c₁, h₁, hnext, hc₁⟩ := Cursor.exists_next? hc
  rw [expr]
  cases t with
  | string | number | boolean | undefined | null =>
      simp only [hnext]
      exact .ok hc₁
  | _ => cases ht

/-- Named arguments in parentheses are read as a literal. -/
theorem complete_hash (h : Complete g .pairs ts) (hd : Derives .pairs ts) (hne : ts ≠ []) :
    Complete g .expr (.parenOpen :: (ts ++ [.parenClose])) := by
  intro c rest hc hrest
  rw [List.cons_append, List.append_assoc] at hc
  obtain ⟨s, c₁, h₁, hnext, hc₁⟩ := Cursor.exists_next? hc
  have hpair : c₁.atPair = true := by
    rw [Cursor.atPair_eq, hc₁]
    cases hd with
    | pairsNil => exact absurd rfl hne
    | pairsCons _ _ => rfl
  rw [expr]
  simp only [hnext, if_pos hpair]
  refine .commit ?_
  refine (h hc₁ (.cons rfl)).bind id fun ⟨_, c₂, _⟩ _ hc₂ => ?_
  refine (meets_isToken hc₂).bind id fun ⟨_, c₃, _⟩ _ hc₃ => ?_
  exact .ok hc₃

/-- A call in parentheses, and whatever goes on from it. -/
theorem meets_parens (h : Complete g .call ts) (hd : Derives .call ts)
    (hc : c.tokens = .parenOpen :: (ts ++ .parenClose :: ts'))
    (hafter : ∀ {start : Nat} {sub : SubExpr} {c' : Cursor}, c'.tokens = ts' →
      Meets False rest (afterSub g start sub c')) : Meets False rest (expr g c) := by
  obtain ⟨s, c₁, h₁, hnext, hc₁⟩ := Cursor.exists_next? hc
  have hpair : ¬c₁.atPair = true := by
    rw [Cursor.atPair_eq, hc₁, startsPair_call hd (.cons rfl)]
    exact Bool.false_ne_true
  rw [expr]
  simp only [hnext, if_neg hpair]
  refine .commit ?_
  refine (h hc₁ (.cons rfl)).bind id fun ⟨_, c₂, _⟩ _ hc₂ => ?_
  refine (meets_isToken hc₂).bind id fun ⟨_, c₃, _⟩ _ hc₃ => ?_
  refine (hafter hc₃).bind id fun ⟨_, c₄, _⟩ _ hc₄ => ?_
  exact .ok hc₄

/-- A call in parentheses is read up to its parenthesis. -/
theorem complete_sub (h : Complete g .call ts) (hd : Derives .call ts) :
    Complete g .expr (.parenOpen :: (ts ++ [.parenClose])) := by
  intro c rest hc hrest
  rw [List.cons_append, List.append_assoc, List.singleton_append] at hc
  refine meets_parens h hd hc fun {start sub c'} hc' => ?_
  rw [afterSub]
  split
  · next hnext =>
      rw [Cursor.tokens_of_next? hnext] at hc'
      subst hc'
      cases hrest.head
  · exact .ok hc'

/-- A call in parentheses is read with the path that goes on from it. -/
theorem complete_subPath {kind : Separator} (h : Complete g .call ts) (hd : Derives .call ts)
    (hmore : Complete g .segments ts') :
    Complete g .expr (.parenOpen :: (ts ++ .parenClose :: .separator kind :: ts')) := by
  intro c rest hc hrest
  rw [List.cons_append, List.append_assoc] at hc
  refine meets_parens h hd hc fun {start sub c'} hc' => ?_
  obtain ⟨s, c₁, h₁, hnext, hc₁⟩ := Cursor.exists_next? hc'
  rw [afterSub]
  simp only [hnext]
  refine (hmore hc₁ hrest).bind id ?_
  rintro ⟨_, c₂, _⟩ - hc₂
  exact .path fun p => .ok hc₂

/-- A list in brackets is read up to its bracket. -/
theorem complete_array (h : Complete g .exprs ts) :
    Complete g .expr (.arrayOpen :: (ts ++ [.arrayClose])) := by
  intro c rest hc hrest
  rw [List.cons_append, List.append_assoc] at hc
  obtain ⟨s, c₁, h₁, hnext, hc₁⟩ := Cursor.exists_next? hc
  rw [expr]
  simp only [hnext]
  refine .commit ?_
  refine ((h hc₁).2 (.cons rfl)).bind id fun ⟨_, c₂, _⟩ _ hc₂ => ?_
  refine (meets_isToken hc₂).bind id fun ⟨_, c₃, _⟩ _ hc₃ => ?_
  exact .ok hc₃

/-! ## Calls -/

/-- In front of an expression both loops go on. -/
theorem peek?_startsExpr (hd : Derives .expr ts) (hc : c.tokens = ts ++ rest) :
    c.peek?.any Token.startsExpr = true := by
  obtain ⟨t, ts', rfl, ht⟩ := exists_of_expr hd
  rw [Cursor.peek?_eq, hc]
  exact ht

/-- Behind the last argument both loops stop. -/
theorem peek?_endsCall (hrest : Fronts Token.endsCall c.tokens) :
    ¬c.peek?.any Token.startsExpr = true := by
  rw [Cursor.peek?_eq]
  cases hhead : c.tokens.head? with
  | none => exact Bool.false_ne_true
  | some t =>
      have ht := (Bool.and_eq_true_iff.mp (hrest t hhead)).2
      simpa using ht

theorem complete_exprsNil : Complete g .exprs [] := by
  intro c rest hc
  refine ⟨fun hrest => ?_, fun hrest => ?_⟩
  · rw [params]
    split
    · next hgo =>
        obtain ⟨hpair, hstart⟩ := Bool.and_eq_true_iff.mp hgo
        rcases hrest with hrest | hrest
        · rw [Cursor.atPair_eq, hc, List.nil_append, hrest] at hpair
          cases hpair
        · exact absurd hstart (peek?_endsCall (hc ▸ hrest))
    · exact .ok hc
  · rw [items, if_neg (peek?_endsCall (hc ▸ hrest))]
    exact .ok hc

/-- Arguments are read one after another. -/
theorem complete_exprsCons (he : Complete g .expr ts) (hde : Derives .expr ts)
    (h : Complete g .exprs ts') (hd : Derives .exprs ts') : Complete g .exprs (ts ++ ts') := by
  intro c rest hc
  rw [List.append_assoc] at hc
  have hstart := peek?_startsExpr hde hc
  refine ⟨fun hrest => ?_, fun hrest => ?_⟩
  · have hends := fronts_exprs hd hrest.endsExpr
    have hpair : c.atPair = false := by rw [Cursor.atPair_eq, hc, startsPair_expr hde hends]
    rw [params, if_pos (by rw [hpair, hstart]; rfl)]
    refine (he hc hends).bind id fun ⟨_, c₁, _⟩ _ hc₁ => ?_
    refine ((h hc₁).1 hrest).bind id fun ⟨_, c₂, _⟩ _ hc₂ => ?_
    exact .ok hc₂
  · rw [items, if_pos hstart]
    refine (he hc (fronts_exprs hd hrest.endsExpr)).bind id fun ⟨_, c₁, _⟩ _ hc₁ => ?_
    refine ((h hc₁).2 hrest).bind id fun ⟨_, c₂, _⟩ _ hc₂ => ?_
    exact .ok hc₂

theorem complete_pairsNil : Complete g .pairs [] := by
  intro c rest hc hrest
  rw [Grammar.pairs]
  split
  · next hnext =>
      rw [List.nil_append, Cursor.tokens_of_next? hnext] at hc
      subst hc
      cases hrest.head
  · exact .ok hc

/-- Named arguments are read one after another. -/
theorem complete_pairsCons {key : Text} (he : Complete g .expr ts) (h : Complete g .pairs ts')
    (hd : Derives .pairs ts') : Complete g .pairs (.ident key :: .equals :: (ts ++ ts')) := by
  intro c rest hc hrest
  rw [List.cons_append, List.cons_append, List.append_assoc] at hc
  obtain ⟨s, c₁, h₁, hnext, hc₁⟩ := Cursor.exists_next? hc
  obtain ⟨s', c₂, h₂, hnext', hc₂⟩ := Cursor.exists_next? hc₁
  rw [Grammar.pairs]
  simp only [hnext, hnext']
  have hends := (endsParams_pairs hd hrest).endsExpr
  refine (he hc₂ hends).commit.bind id fun ⟨_, c₃, _⟩ _ hc₃ => ?_
  refine (h hc₃ hrest).bind id fun ⟨_, c₄, _⟩ _ hc₄ => ?_
  exact .ok hc₄

/-- A call is read in three parts: its head, its arguments and its named arguments. -/
theorem complete_call (hhead : Complete g .expr ts) (hparams : Complete g .exprs ts')
    (hdparams : Derives .exprs ts') (hpairs : Complete g .pairs ts'')
    (hdpairs : Derives .pairs ts'') : Complete g .call (ts ++ (ts' ++ ts'')) := by
  intro c rest hc hrest
  rw [List.append_assoc, List.append_assoc] at hc
  have hends := endsParams_pairs hdpairs hrest
  rw [Grammar.call]
  refine (hhead hc (fronts_exprs hdparams hends.endsExpr)).bind id fun ⟨_, c₁, _⟩ _ hc₁ => ?_
  refine ((hparams hc₁).1 hends).bind id fun ⟨_, c₂, _⟩ _ hc₂ => ?_
  refine (hpairs hc₂ hrest).bind id fun ⟨_, c₃, _⟩ _ hc₃ => ?_
  exact .ok hc₃

end Grammar
end Stache
