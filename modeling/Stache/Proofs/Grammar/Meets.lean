import Stache.Proofs.Grammar.Follows

/-!
# Results that meet a derivation

A production in front of tokens that derive its phrase reads just these tokens,
or the builder refuses a node that it has read.  It never asks for another token.
`Meets` says this of a result; the lemmas give it for the steps that productions
are made of.  Of the errors of the builder it sets one apart, an else chain that
does not go on with a block.
-/

namespace Stache

/-! ## The tokens of a cursor -/

namespace Cursor

variable {c c' : Cursor} {t : Token} {ts : List Token}

/-- The tokens that are left. -/
def tokens (c : Cursor) : List Token := Grammar.tokensOf c.rest

/-- A cursor with a token left comes to it. -/
theorem exists_next? (h : c.tokens = t :: ts) :
    ∃ s c' hlt, c.next? = some ⟨⟨t, s⟩, c', hlt⟩ ∧ c'.tokens = ts := by
  obtain ⟨last, rest⟩ := c
  cases rest with
  | nil => cases h
  | cons l rest =>
      obtain ⟨t', s⟩ := l
      cases h
      exact ⟨s, ⟨s, rest⟩, _, rfl, rfl⟩

theorem tokens_of_next? {l : Lexeme} {h : c'.rest.length < c.rest.length}
    (hnext : c.next? = some ⟨l, c', h⟩) : c.tokens = l.token :: c'.tokens := by
  rw [tokens, (reads_of_next? hnext).rest_eq]
  rfl

/-- What a cursor sees is the first token that is left. -/
theorem peek?_eq (c : Cursor) : c.peek? = c.tokens.head? := by
  rw [peek?, tokens, Grammar.tokensOf, List.head?_map]

/-- Whether a named argument comes next is read off the tokens that are left. -/
theorem atPair_eq (c : Cursor) : c.atPair = Grammar.startsPair c.tokens := by
  obtain ⟨last, rest⟩ := c
  unfold atPair
  split
  · next hrest =>
      cases hrest
      rfl
  · next hrest =>
      unfold Grammar.startsPair
      split
      · next htokens =>
          obtain ⟨⟨t, s⟩, ls, rfl, ht, htokens⟩ := List.map_eq_cons_iff.mp htokens
          obtain ⟨⟨t', s'⟩, ls', rfl, ht', -⟩ := List.map_eq_cons_iff.mp htokens
          cases ht
          cases ht'
          exact absurd rfl (hrest _ _ _ _)
      · rfl

end Cursor

namespace Grammar

/-! ## Results -/

/-- A link of an else chain has a `*` in its delimiter. -/
def Starred (ts : List Token) : Prop := ∃ opener, .opener .chain opener ∈ ts ∧ '*' ∈ opener

/-- A starred link of some tokens is one of more of them. -/
theorem Starred.mono {ts ts' : List Token} (h : Starred ts) (hsub : ts ⊆ ts') : Starred ts' := by
  obtain ⟨opener, hmem, hstar⟩ := h
  exact ⟨opener, hsub hmem, hstar⟩

/-- The result leaves the tokens `rest`, or the builder refuses a node.  It
refuses a chain only if `star` holds. -/
def Meets {α : Type} {n : Nat} (star : Prop) (rest : List Token)
    (x : Except Refusal (Parsed α n)) : Prop :=
  (∃ p, x = .ok p ∧ p.cursor.tokens = rest) ∨
    ∃ e, x = .error (.rejected e) ∧ (e.code = .brokenChain → star)

section Meets

variable {α β : Type} {k n : Nat} {star star' : Prop} {rest rest' : List Token} {c : Cursor}
  {x : Except Refusal (Parsed α n)}

/-- A result leaves the tokens behind it. -/
theorem Meets.ok {p : Parsed α n} (h : p.cursor.tokens = rest) : Meets star rest (.ok p) :=
  .inl ⟨p, rfl, h⟩

/-- A production goes on with the tokens that its first part leaves. -/
theorem Meets.bind {x : Except Refusal (Parsed α k)} {f : Parsed α k → Except Refusal (Parsed β n)}
    (hx : Meets star rest x) (hstar : star → star')
    (hf : ∀ p, x = .ok p → p.cursor.tokens = rest → Meets star' rest' (f p)) :
    Meets star' rest' (x >>= f) := by
  rcases hx with ⟨p, rfl, hp⟩ | ⟨e, rfl, he⟩
  · exact hf p rfl hp
  · exact .inr ⟨e, rfl, fun hcode => hstar (he hcode)⟩

/-- A commitment does not matter to what is left. -/
theorem Meets.commit (h : Meets star rest x) : Meets star rest (c.commit x) := by
  rcases h with ⟨p, rfl, hp⟩ | ⟨e, rfl, he⟩
  · exact .inl ⟨p, rfl, hp⟩
  · exact .inr ⟨e, rfl, he⟩

/-- A node that the builder makes or refuses. -/
theorem Meets.lift {r : Except BuildError α} {f : α → Except Refusal (Parsed β n)}
    (hr : ∀ e, r = .error e → e.code = .brokenChain → star) (hf : ∀ a, Meets star rest (f a)) :
    Meets star rest (Refusal.lift r >>= f) := by
  cases r with
  | ok a => exact hf a
  | error e => exact .inr ⟨e, rfl, hr e rfl⟩

/-- A token that is asked for and there. -/
theorem meets_expect {expected : Expected} {pick : Token → Option α} {t : Token} {a : α}
    (hpick : pick t = some a) (h : c.tokens = t :: rest) :
    Meets False rest (c.expect expected pick) := by
  obtain ⟨s, c', hlt, hnext, hc⟩ := Cursor.exists_next? h
  simp only [Cursor.expect, hnext, hpick]
  exact .ok hc

theorem meets_ident {expected : Expected} {name : Text} (h : c.tokens = .ident name :: rest) :
    Meets False rest (c.expect expected Token.ident?) := meets_expect rfl h

theorem meets_closer {expected : Expected} {text : Text} (h : c.tokens = .closer text :: rest) :
    Meets False rest (c.expect expected Token.closer?) := meets_expect rfl h

theorem meets_unescapedCloser {expected : Expected} {text : Text}
    (h : c.tokens = .unescapedCloser text :: rest) :
    Meets False rest (c.expect expected Token.unescapedCloser?) := meets_expect rfl h

theorem meets_rawEnd {expected : Expected} {name : Text} (h : c.tokens = .rawEnd name :: rest) :
    Meets False rest (c.expect expected Token.rawEnd?) := meets_expect rfl h

theorem meets_blockClose {expected : Expected} {text : Text}
    (h : c.tokens = .opener .close text :: rest) :
    Meets False rest (c.expect expected Token.blockClose?) := meets_expect rfl h

/-- A token that is asked for and there. -/
theorem meets_isToken {expected : Expected} {t : Token} (h : c.tokens = t :: rest) :
    Meets False rest (c.expect expected (Token.isToken? t)) := meets_expect (if_pos rfl) h

end Meets

end Grammar
end Stache
