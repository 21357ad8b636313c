import Stache.Proofs.Grammar.Derives

/-!
# What may follow a phrase

The grammar decides by the next token where a path, a call or a body ends.  So
for every derivation that a phrase takes part in, the first token behind the
phrase must be none that could go on with it.  This module says which tokens
these are and shows it for the parts of each alternative.
-/

namespace Stache

/-! ## What may follow -/

namespace Token

/-- An expression may end in front of the token: no separator goes on with its
path, and no `=` makes its name a key. -/
def endsExpr : Token → Bool
  | .separator _ | .equals => false
  | _ => true

/-- A call may end in front of the token. -/
def endsCall (t : Token) : Bool := t.endsExpr && !t.startsExpr

/-- Statements may end in front of the token. -/
def endsBody (t : Token) : Bool := !t.startsStatement

/-- What starts an expression goes on with none. -/
theorem endsExpr_of_startsExpr {t : Token} (h : t.startsExpr = true) : t.endsExpr = true := by
  cases t <;> first | rfl | cases h

/-- A literal starts an expression. -/
theorem startsExpr_of_isLiteral {t : Token} (h : t.isLiteral = true) : t.startsExpr = true := by
  cases t <;> first | rfl | cases h

end Token

namespace Grammar

/-- The first token, if there is one, passes a test. -/
def Fronts (ok : Token → Bool) (ts : List Token) : Prop := ∀ t ∈ ts.head?, ok t = true

/-- A name and `=` come first. -/
def startsPair : List Token → Bool
  | .ident _ :: .equals :: _ => true
  | _ => false

/-- The parameters of a call may end here. -/
def EndsParams (ts : List Token) : Prop := startsPair ts = true ∨ Fronts Token.endsCall ts

section Fronts

variable {ok ok' : Token → Bool} {t : Token} {ts rest : List Token}

theorem Fronts.nil : Fronts ok [] := nofun

theorem Fronts.cons (h : ok t = true) : Fronts ok (t :: ts) := by
  intro t' ht
  obtain rfl := Option.some.inj ht
  exact h

/-- The token in front has the property. -/
theorem Fronts.head (h : Fronts ok (t :: ts)) : ok t = true := h t rfl

/-- What ends a call ends its last expression. -/
theorem Fronts.endsExpr (h : Fronts Token.endsCall ts) : Fronts Token.endsExpr ts :=
  fun t ht => (Bool.and_eq_true_iff.mp (h t ht)).1

/-- What ends the arguments ends the last of them. -/
theorem EndsParams.endsExpr (h : EndsParams ts) : Fronts Token.endsExpr ts := by
  rcases h with h | h
  · unfold startsPair at h
    split at h
    · exact .cons rfl
    · cases h
  · exact h.endsExpr

/-! ## How phrases start -/

/-- An expression has a first token, which starts one. -/
theorem exists_of_expr (h : Derives .expr ts) : ∃ t ts', ts = t :: ts' ∧ t.startsExpr = true := by
  cases h with
  | path h =>
      cases h
      exact ⟨_, _, rfl, rfl⟩
  | literal h => exact ⟨_, _, rfl, Token.startsExpr_of_isLiteral h⟩
  | data | hash | sub | subPath | array => exact ⟨_, _, rfl, rfl⟩

/-- A closing tag starts with its delimiter. -/
theorem exists_of_closing (h : Derives .closing ts) :
    ∃ opener ts', ts = .opener .close opener :: ts' := by
  cases h
  exact ⟨_, _, rfl⟩

/-- An opening tag starts with its delimiter. -/
theorem exists_of_opening {kind : Opener} (h : Derives (.opening kind) ts) :
    ∃ opener ts', ts = .opener kind opener :: ts' := by
  cases h
  exact ⟨_, _, rfl⟩

/-- A statement has a first token, which starts one. -/
theorem exists_of_statement (h : Derives .statement ts) :
    ∃ t ts', ts = t :: ts' ∧ t.startsStatement = true := by
  cases h with
  | block hhead _ _ _ | inverse hhead _ _ _ =>
      obtain ⟨opener, ts', rfl⟩ := exists_of_opening hhead
      exact ⟨_, _, rfl, rfl⟩
  | content | comment | plain | unescaped | inclusion | inclusionBlock | rawBlock =>
      exact ⟨_, _, rfl, rfl⟩

/-! ## What follows a part of a phrase -/

/-- An expression ends the one in front of it. -/
theorem fronts_expr (h : Derives .expr ts) : Fronts Token.endsExpr (ts ++ rest) := by
  obtain ⟨t, ts', rfl, ht⟩ := exists_of_expr h
  exact .cons (Token.endsExpr_of_startsExpr ht)

/-- Behind an expression in a list, whatever its list ends with. -/
theorem fronts_exprs (h : Derives .exprs ts) (hrest : Fronts Token.endsExpr rest) :
    Fronts Token.endsExpr (ts ++ rest) := by
  cases h with
  | exprsNil => exact hrest
  | exprsCons he _ =>
      rw [List.append_assoc]
      exact fronts_expr he

/-- Behind the parameters of a call. -/
theorem endsParams_pairs (h : Derives .pairs ts) (hrest : Fronts Token.endsCall rest) :
    EndsParams (ts ++ rest) := by
  cases h with
  | pairsNil => exact .inr hrest
  | pairsCons _ _ => exact .inl rfl

/-- An expression is no key. -/
theorem startsPair_expr (h : Derives .expr ts) (hrest : Fronts Token.endsExpr rest) :
    startsPair (ts ++ rest) = false := by
  cases h with
  | path h =>
      cases h with
      | segments h =>
          cases h with
          | tailNil =>
              unfold startsPair
              split
              · next heq =>
                  cases heq
                  exact nomatch hrest.head
              · rfl
          | tailCons _ => rfl
  | literal h =>
      next t =>
        cases t <;> first | rfl | cases h
  | data | hash | sub | subPath | array => rfl

/-- A call does not start like a named argument. -/
theorem startsPair_call (h : Derives .call ts) (hrest : Fronts Token.endsCall rest) :
    startsPair (ts ++ rest) = false := by
  cases h with
  | call hhead hparams hpairs =>
      have hend := (endsParams_pairs hpairs hrest).endsExpr
      rw [List.append_assoc, List.append_assoc]
      exact startsPair_expr hhead (fronts_exprs hparams hend)

/-- Behind the main section of a block. -/
theorem fronts_section {chains : Bool} (h : Derives (.elseSection chains) ts)
    (hrest : Fronts Token.endsBody rest) : Fronts Token.endsBody (ts ++ rest) := by
  cases h with
  | sectionNone => exact hrest
  | sectionPlain _ => exact .cons rfl
  | sectionLink hhead _ _ =>
      obtain ⟨opener, ts', rfl⟩ := exists_of_opening hhead
      exact .cons rfl

/-- A closing tag ends the body in front of it. -/
theorem fronts_closing (h : Derives .closing ts) : Fronts Token.endsBody (ts ++ rest) := by
  obtain ⟨opener, ts', rfl⟩ := exists_of_closing h
  exact .cons rfl

end Fronts

end Grammar
end Stache
