import Stache.Proofs.Grammar.Calls
import Stache.Proofs.Grammar.Sound

/-!
# The grammar reads what is written

The converse of soundness: where tokens write a program, the grammar returns just that program
(`program_eq_ok_iff`).

`Exact` says it of one production.  In front of tokens that write a node the production returns
this node and stops behind them, as long as what comes next is nothing that could go on with the
phrase.  There is a lemma for each alternative, and the induction over the derivation comes last.
Where the builder may refuse a node that is read, the lemma says that its word is final
(`Settles`).
-/

namespace Stache

namespace Cursor

variable {c c' c'' : Cursor} {l : Lexeme} {ls ls' : List Lexeme}

/-- What is read in two parts has a cursor between them. -/
theorem Reads.exists_append (h : c.Reads (ls ++ ls') c'') :
    ∃ c', c.Reads ls c' ∧ c'.Reads ls' c'' := by
  refine ⟨⟨endOf c.last ls, ls' ++ c''.rest⟩, ⟨?_, rfl⟩, ⟨rfl, ?_⟩⟩
  · rw [h.rest_eq, List.append_assoc]
  · rw [h.last_eq, endOf_append]

/-- What is read token by token has a cursor behind the first one. -/
theorem Reads.exists_cons (h : c.Reads (l :: ls) c'') :
    ∃ c', c.Reads [l] c' ∧ c'.Reads ls c'' :=
  Reads.exists_append h

theorem Reads.eq_of_nil (h : c.Reads [] c') : c = c' := by
  obtain ⟨last, rest⟩ := c
  obtain ⟨last', rest'⟩ := c'
  obtain rfl : rest = rest' := h.rest_eq
  obtain rfl : last' = last := h.last_eq
  rfl

/-- The cursor in front of a token comes to it next. -/
theorem Reads.next? (h : c.Reads [l] c') : ∃ hlt, c.next? = some ⟨l, c', hlt⟩ := by
  obtain ⟨last, rest⟩ := c
  obtain ⟨last', rest'⟩ := c'
  obtain rfl : rest = l :: rest' := h.rest_eq
  obtain rfl : last' = l.span := h.last_eq
  exact ⟨_, rfl⟩

/-- What is read stands in front of what is left. -/
theorem Reads.tokens_eq (h : c.Reads ls c') : c.tokens = Grammar.tokensOf ls ++ c'.tokens := by
  rw [tokens, h.rest_eq, Grammar.tokensOf_append]
  rfl

end Cursor

namespace Grammar

/-! ## Results -/

/-- The result is `a`, and the rest of the tokens is that of `c`. -/
def Returns {α : Type} {n : Nat} (x : Except Refusal (Parsed α n)) (a : α) (c : Cursor) : Prop :=
  ∃ hlt, x = .ok ⟨a, c, hlt⟩

section Returns

variable {α β : Type} {k n : Nat} {a : α} {b : β} {c c' : Cursor}

/-- A production goes on behind the part that it has read. -/
theorem Returns.bind {x : Except Refusal (Parsed α k)}
    {f : Parsed α k → Except Refusal (Parsed β n)} (hx : Returns x a c)
    (hf : ∀ hlt, Returns (f ⟨a, c, hlt⟩) b c') : Returns (x >>= f) b c' := by
  obtain ⟨hlt, rfl⟩ := hx
  exact hf hlt

/-- A commitment matters to refusals only. -/
theorem Returns.commit {x : Except Refusal (Parsed α n)} (h : Returns x a c') :
    Returns (c.commit x) a c' := by
  obtain ⟨hlt, rfl⟩ := h
  exact ⟨hlt, rfl⟩

/-- A node that the builder makes. -/
theorem Returns.lift {r : Except BuildError α} {f : α → Except Refusal (Parsed β n)}
    (hr : r = .ok a) (hf : Returns (f a) b c) : Returns (Refusal.lift r >>= f) b c := by
  subst hr
  exact hf

/-- A token that is asked for and there. -/
theorem returns_expect {expected : Expected} {pick : Token → Option α} {t : Token} {s : Span}
    (hpick : pick t = some a) (h : c.Reads [⟨t, s⟩] c') :
    Returns (c.expect expected pick) a c' := by
  obtain ⟨hlt, hnext⟩ := h.next?
  simp only [Cursor.expect, hnext, hpick]
  exact ⟨hlt, rfl⟩

/-- A name that is asked for and there. -/
theorem returns_ident {expected : Expected} {name : Text} {s : Span}
    (h : c.Reads [⟨.ident name, s⟩] c') : Returns (c.expect expected Token.ident?) name c' :=
  returns_expect rfl h

/-- The end of a tag that is asked for and there. -/
theorem returns_closer {expected : Expected} {text : Text} {s : Span}
    (h : c.Reads [⟨.closer text, s⟩] c') : Returns (c.expect expected Token.closer?) text c' :=
  returns_expect rfl h

theorem returns_unescapedCloser {expected : Expected} {text : Text} {s : Span}
    (h : c.Reads [⟨.unescapedCloser text, s⟩] c') :
    Returns (c.expect expected Token.unescapedCloser?) text c' := returns_expect rfl h

/-- The closer of a raw block that is asked for and there. -/
theorem returns_rawEnd {expected : Expected} {name : Text} {s : Span}
    (h : c.Reads [⟨.rawEnd name, s⟩] c') : Returns (c.expect expected Token.rawEnd?) name c' :=
  returns_expect rfl h

/-- The start of a closing tag that is asked for and there. -/
theorem returns_blockClose {expected : Expected} {text : Text} {s : Span}
    (h : c.Reads [⟨.opener .close text, s⟩] c') :
    Returns (c.expect expected Token.blockClose?) text c' := returns_expect rfl h

theorem returns_isToken {expected : Expected} {t : Token} {s : Span} (h : c.Reads [⟨t, s⟩] c') :
    Returns (c.expect expected (Token.isToken? t)) () c' := returns_expect (if_pos rfl) h

end Returns

/-- The builder refuses a node. -/
def Rejects {α : Type} (x : Except Refusal α) (e : BuildError) : Prop := x = .error (.rejected e)

section Rejects

variable {α β : Type} {k : Nat} {e : BuildError}

/-- What is refused is not gone on with. -/
theorem Rejects.bind {x : Except Refusal α} {f : α → Except Refusal β} (h : Rejects x e) :
    Rejects (x >>= f) e := by
  obtain rfl := h
  rfl

/-- A commitment does not change what the builder refuses. -/
theorem Rejects.commit {x : Except Refusal α} {c : Cursor} (h : Rejects x e) :
    Rejects (c.commit x) e := by
  obtain rfl := h
  rfl

/-- What comes behind a part that is read is refused. -/
theorem Returns.rejects {x : Except Refusal (Parsed α k)} {a : α} {c : Cursor}
    {f : Parsed α k → Except Refusal β} (hx : Returns x a c)
    (hf : ∀ hlt, Rejects (f ⟨a, c, hlt⟩) e) : Rejects (x >>= f) e := by
  obtain ⟨hlt, rfl⟩ := hx
  exact hf hlt

theorem rejects_lift {r : Except BuildError α} {f : α → Except Refusal β} (hr : r = .error e) :
    Rejects (Refusal.lift r >>= f) e := by
  subst hr
  rfl

end Rejects

/-- The result is what the builder says: the node that `make` puts its answer in, with the rest of
the tokens that of `c`, or its refusal. -/
structure Settles {α β : Type} {n : Nat} (x : Except Refusal (Parsed β n))
    (r : Except BuildError α) (make : α → β) (c : Cursor) : Prop where
  returns : ∀ {a}, r = .ok a → Returns x (make a) c
  rejects : ∀ {e}, r = .error e → Rejects x e

section Settles

variable {α β : Type} {k n : Nat} {c c' : Cursor} {r : Except BuildError α} {make : α → β}

/-- A production ends with a node that the builder makes or refuses. -/
theorem settles_lift {f : α → Except Refusal (Parsed β n)} (hf : ∀ a, Returns (f a) (make a) c) :
    Settles (Refusal.lift r >>= f) r make c :=
  ⟨fun hr => .lift hr (hf _), rejects_lift⟩

/-- The builder settles a production that goes on behind a part that is read. -/
theorem Returns.settles {γ : Type} {x : Except Refusal (Parsed γ k)} {b : γ}
    {f : Parsed γ k → Except Refusal (Parsed β n)} (hx : Returns x b c)
    (hf : ∀ hlt, Settles (f ⟨b, c, hlt⟩) r make c') : Settles (x >>= f) r make c' := by
  obtain ⟨hlt, rfl⟩ := hx
  exact hf hlt

/-- What the builder says is final behind a commitment too. -/
theorem Settles.commit {x : Except Refusal (Parsed β n)} (h : Settles x r make c') :
    Settles (c.commit x) r make c' :=
  ⟨fun hr => (h.returns hr).commit, fun hr => (h.rejects hr).commit⟩

/-- Nothing is read behind the node. -/
theorem Settles.bind {x : Except Refusal (Parsed β k)}
    {f : Parsed β k → Except Refusal (Parsed β n)} (h : Settles x r make c)
    (hf : ∀ b hlt, Returns (f ⟨b, c, hlt⟩) b c) : Settles (x >>= f) r make c :=
  ⟨fun hr => (h.returns hr).bind (hf _), fun hr => (h.rejects hr).bind⟩

end Settles

/-- In front of the tokens `ls` the production returns `a` and stops behind them, if the tokens
that follow end its phrase. -/
def Exact {α : Type} {size : Cursor → Nat}
    (production : ∀ c : Cursor, Except Refusal (Parsed α (size c))) (Ends : List Token → Prop)
    (ls : List Lexeme) (a : α) : Prop :=
  ∀ ⦃c c' : Cursor⦄, c.Reads ls c' → Ends c'.tokens → Returns (production c) a c'

variable {g : Grammar} {ls ls' ls'' : List Lexeme} {s s' s'' : Span}

/-! ## Paths -/

/-- The segments behind the first are read as far as separators go on with them. -/
theorem exact_moreSegments {more : List Segment} (h : WritesTail ls more) :
    Exact moreSegments (Fronts Token.endsExpr) ls more := by
  induction h with
  | nil =>
      intro c c' hreads hrest
      obtain rfl := hreads.eq_of_nil
      rw [moreSegments]
      split
      · next hnext =>
          rw [Cursor.tokens_of_next? hnext] at hrest
          cases hrest.head
      · exact ⟨_, rfl⟩
  | cons _ ih =>
      intro c c' hreads hrest
      obtain ⟨c₁, hfirst, hreads⟩ := hreads.exists_cons
      obtain ⟨c₂, hname, hreads⟩ := hreads.exists_cons
      obtain ⟨hlt, hnext⟩ := hfirst.next?
      rw [moreSegments]
      simp only [hnext]
      refine (returns_ident hname).commit.bind fun _ => ?_
      exact (ih hreads hrest).bind fun _ => ⟨_, rfl⟩

/-- The segments of a path are read. -/
theorem exact_segments {segments : List Segment} (h : WritesSegments ls segments) :
    Exact Grammar.segments (Fronts Token.endsExpr) ls segments := by
  intro c c' hreads hrest
  cases h with
  | mk h =>
      obtain ⟨c₁, hname, hreads⟩ := hreads.exists_cons
      refine (returns_ident hname).bind fun _ => ?_
      exact (exact_moreSegments h hreads hrest).bind fun _ => ⟨_, rfl⟩

/-! ## Expressions -/

/-- A path is read, and the builder has the last word on it. -/
theorem settles_path {segments : List Segment} (h : WritesSegments ls segments) {c c' : Cursor}
    (hreads : c.Reads ls c') (hrest : Fronts Token.endsExpr c'.tokens) :
    Settles (expr g c) (g.builder.path false none segments (g.extentOf ls)) .path c' := by
  cases h with
  | mk h =>
      rw [← extent_of_reads hreads]
      obtain ⟨c₁, hname, hreads⟩ := hreads.exists_cons
      obtain ⟨hlt, hnext⟩ := hname.next?
      rw [expr]
      simp only [hnext]
      exact (exact_moreSegments h hreads hrest).settles fun _ => settles_lift fun _ => ⟨_, rfl⟩

/-- A path behind an `@` is read, and the builder has the last word on it. -/
theorem settles_data {segments : List Segment} (h : WritesSegments ls segments) {c c' : Cursor}
    (hreads : c.Reads (⟨.data, s⟩ :: ls) c') (hrest : Fronts Token.endsExpr c'.tokens) :
    Settles (expr g c) (g.builder.path true none segments (g.extentOf (⟨.data, s⟩ :: ls)))
      .path c' := by
  rw [← extent_of_reads hreads]
  obtain ⟨c₁, hmark, hreads⟩ := hreads.exists_cons
  obtain ⟨hlt, hnext⟩ := hmark.next?
  rw [expr]
  simp only [hnext]
  exact (exact_segments h hreads hrest).commit.settles fun _ => settles_lift fun _ => ⟨_, rfl⟩

/-- A literal is an expression of its own. -/
theorem exact_literal {l : Lexeme} {e : Expr} (hl : l.token.isLiteral = true)
    (h : g.WritesExpr [l] e) : Exact (expr g) (Fronts Token.endsExpr) [l] e := by
  intro c c' hreads hrest
  have hplace := extent_of_reads (g := g) hreads
  obtain ⟨hlt, hnext⟩ := hreads.next?
  generalize hls : [l] = own at h
  cases h with
  | string | number | boolean | undefined | null =>
      cases hls
      rw [expr]
      simp only [hnext]
      exact ⟨hlt, by rw [← hplace]⟩
  | path h _ =>
      cases h
      cases hls
      cases hl
  | _ =>
      obtain ⟨rfl, -⟩ := List.cons.inj hls
      cases hl

/-- Named arguments in parentheses are a literal. -/
theorem exact_hash {pairs : List HashPair}
    (h : Exact (Grammar.pairs g) (Fronts Token.endsCall) ls pairs) (hd : g.WritesPairs ls pairs)
    (hne : pairs ≠ []) :
    Exact (expr g) (Fronts Token.endsExpr) (parens s ls s')
      (g.builder.hashLiteral ⟨pairs, g.builder.locate (g.extentOf ls)⟩
        (g.extentOf (parens s ls s'))) := by
  intro c c' hreads hrest
  have hplace := extent_of_reads (g := g) hreads
  obtain ⟨c₁, hopen, hreads⟩ := hreads.exists_cons
  obtain ⟨c₂, hreads, hclose⟩ := hreads.exists_append
  have hinside := extent_start_of_reads (g := g) hreads (ne_nil_of_writesPairs hd hne)
  obtain ⟨hlt, hnext⟩ := hopen.next?
  have hpair : c₁.atPair = true := by
    rw [Cursor.atPair_eq, hreads.tokens_eq]
    cases hd with
    | nil => exact absurd rfl hne
    | cons _ _ => rfl
  have hends : Fronts Token.endsCall c₂.tokens := by
    rw [hclose.tokens_eq]
    exact .cons rfl
  rw [expr]
  simp only [hnext, if_pos hpair]
  refine .commit ?_
  refine (h hreads hends).bind fun _ => ?_
  refine (returns_isToken hclose).bind fun _ => ?_
  rw [parens, ← hplace, ← hinside]
  exact ⟨_, rfl⟩

/-- A call in parentheses, and whatever goes on from it. -/
theorem exact_parens {called : Call} {e : Expr}
    (h : Exact (call g) (Fronts Token.endsCall) ls called) (hd : g.WritesCall ls called)
    (hafter : ∀ ⦃c₀ c c' : Cursor⦄, c₀.Reads (parens s ls s') c → c.Reads ls' c' →
      Fronts Token.endsExpr c'.tokens →
      Returns (afterSub g s.start (g.subOf called (parens s ls s')) c) e c') :
    Exact (expr g) (Fronts Token.endsExpr) (parens s ls s' ++ ls') e := by
  intro c c' hreads hrest
  obtain ⟨c₃, hall, hbehind⟩ := hreads.exists_append
  have hspan : (⟨s.start, c₃.last.stop⟩ : Span) = covered (parens s ls s') := hall.span_eq
  have hsub : g.builder.subExpr called (g.text.slice s.start c₃.last.stop)
      (g.extent s.start c₃) = g.subOf called (parens s ls s') :=
    congrArg (fun x : Span => g.builder.subExpr called (g.text.slice x.start x.stop)
      (Source.extent g.text x)) hspan
  have hreturns := hafter hall hbehind hrest
  obtain ⟨c₁, hopen, hreads⟩ := hall.exists_cons
  obtain ⟨c₂, hreads, hclose⟩ := hreads.exists_append
  obtain ⟨hlt, hnext⟩ := hopen.next?
  have hends : Fronts Token.endsCall c₂.tokens := by
    rw [hclose.tokens_eq]
    exact .cons rfl
  have hpair : ¬c₁.atPair = true := by
    rw [Cursor.atPair_eq, hreads.tokens_eq, startsPair_call (derives_of_writesCall hd) hends]
    exact Bool.false_ne_true
  rw [expr]
  simp only [hnext, if_neg hpair]
  refine .commit ?_
  refine (h hreads hends).bind fun _ => ?_
  refine (returns_isToken hclose).bind fun _ => ?_
  rw [← hsub] at hreturns
  exact Returns.bind hreturns fun _ => ⟨_, rfl⟩

/-- A call in parentheses is an expression if no separator follows. -/
theorem exact_sub {called : Call} (h : Exact (call g) (Fronts Token.endsCall) ls called)
    (hd : g.WritesCall ls called) :
    Exact (expr g) (Fronts Token.endsExpr) (parens s ls s')
      (.sub (g.subOf called (parens s ls s'))) := by
  rw [← List.append_nil (parens s ls s')]
  refine exact_parens h hd fun c₀ c c' _ hreads hrest => ?_
  obtain rfl := hreads.eq_of_nil
  rw [List.append_nil, afterSub]
  split
  · next hnext =>
      rw [Cursor.tokens_of_next? hnext] at hrest
      cases hrest.head
  · exact ⟨_, rfl⟩

/-- A call in parentheses is the head of a path if a separator follows. -/
theorem exact_subPath {kind : Separator} {called : Call} {segments : List Segment} {p : Path}
    (h : Exact (call g) (Fronts Token.endsCall) ls called) (hd : g.WritesCall ls called)
    (hmore : WritesSegments ls' segments)
    (hpath : g.builder.path false (some (g.subOf called (parens s ls s'))) segments
      (g.extentOf (parens s ls s' ++ ⟨.separator kind, s''⟩ :: ls')) = .ok p) :
    Exact (expr g) (Fronts Token.endsExpr)
      (parens s ls s' ++ ⟨.separator kind, s''⟩ :: ls') (.path p) := by
  refine exact_parens h hd fun c₀ c c' hbefore hreads hrest => ?_
  have hplace : g.extent s.start c' =
      g.extentOf (parens s ls s' ++ ⟨.separator kind, s''⟩ :: ls') :=
    extent_of_reads (hbefore.trans hreads)
  rw [← hplace] at hpath
  obtain ⟨c₁, hmark, hreads⟩ := hreads.exists_cons
  obtain ⟨hlt, hnext⟩ := hmark.next?
  rw [afterSub]
  simp only [hnext]
  refine (exact_segments hmore hreads hrest).bind fun _ => ?_
  exact .lift hpath ⟨_, rfl⟩

/-- A list in brackets is read up to its bracket. -/
theorem exact_array {list : List Expr} (h : Exact (items g) (Fronts Token.endsCall) ls list) :
    Exact (expr g) (Fronts Token.endsExpr) (brackets s ls s')
      (g.builder.array list (g.extentOf (brackets s ls s'))) := by
  intro c c' hreads hrest
  have hplace := extent_of_reads (g := g) hreads
  obtain ⟨c₁, hopen, hreads⟩ := hreads.exists_cons
  obtain ⟨c₂, hreads, hclose⟩ := hreads.exists_append
  obtain ⟨hlt, hnext⟩ := hopen.next?
  have hends : Fronts Token.endsCall c₂.tokens := by
    rw [hclose.tokens_eq]
    exact .cons rfl
  rw [expr]
  simp only [hnext]
  refine .commit ?_
  refine (h hreads hends).bind fun _ => ?_
  refine (returns_isToken hclose).bind fun _ => ?_
  rw [brackets, ← hplace]
  exact ⟨_, rfl⟩

/-! ## Calls -/

theorem exact_params_nil : Exact (params g) EndsParams [] [] := by
  intro c c' hreads hrest
  obtain rfl := hreads.eq_of_nil
  rw [params]
  split
  · next hgo =>
      obtain ⟨hpair, hstart⟩ := Bool.and_eq_true_iff.mp hgo
      rcases hrest with hrest | hrest
      · rw [Cursor.atPair_eq, hrest] at hpair
        cases hpair
      · exact absurd hstart (peek?_endsCall hrest)
  · exact ⟨_, rfl⟩

/-- Arguments are read one after another, up to the first key. -/
theorem exact_params_cons {e : Expr} {more : List Expr}
    (he : Exact (expr g) (Fronts Token.endsExpr) ls e) (hde : g.WritesExpr ls e)
    (h : Exact (params g) EndsParams ls' more) (hd : g.WritesExprs ls' more) :
    Exact (params g) EndsParams (ls ++ ls') (e :: more) := by
  intro c c' hreads hrest
  obtain ⟨c₁, hfirst, hreads⟩ := hreads.exists_append
  have hends : Fronts Token.endsExpr c₁.tokens := by
    rw [hreads.tokens_eq]
    exact fronts_exprs (derives_of_writesExprs hd) hrest.endsExpr
  have hstart := peek?_startsExpr (derives_of_writesExpr hde) hfirst.tokens_eq
  have hpair : c.atPair = false := by
    rw [Cursor.atPair_eq, hfirst.tokens_eq, startsPair_expr (derives_of_writesExpr hde) hends]
  rw [params, if_pos (by rw [hpair, hstart]; rfl)]
  refine (he hfirst hends).bind fun _ => ?_
  exact (h hreads hrest).bind fun _ => ⟨_, rfl⟩

theorem exact_items_nil : Exact (items g) (Fronts Token.endsCall) [] [] := by
  intro c c' hreads hrest
  obtain rfl := hreads.eq_of_nil
  rw [items, if_neg (peek?_endsCall hrest)]
  exact ⟨_, rfl⟩

/-- The items of a list are read one after another. -/
theorem exact_items_cons {e : Expr} {more : List Expr}
    (he : Exact (expr g) (Fronts Token.endsExpr) ls e) (hde : g.WritesExpr ls e)
    (h : Exact (items g) (Fronts Token.endsCall) ls' more) (hd : g.WritesExprs ls' more) :
    Exact (items g) (Fronts Token.endsCall) (ls ++ ls') (e :: more) := by
  intro c c' hreads hrest
  obtain ⟨c₁, hfirst, hreads⟩ := hreads.exists_append
  have hends : Fronts Token.endsExpr c₁.tokens := by
    rw [hreads.tokens_eq]
    exact fronts_exprs (derives_of_writesExprs hd) hrest.endsExpr
  rw [items, if_pos (peek?_startsExpr (derives_of_writesExpr hde) hfirst.tokens_eq)]
  refine (he hfirst hends).bind fun _ => ?_
  exact (h hreads hrest).bind fun _ => ⟨_, rfl⟩

theorem exact_pairs_nil : Exact (pairs g) (Fronts Token.endsCall) [] [] := by
  intro c c' hreads hrest
  obtain rfl := hreads.eq_of_nil
  rw [pairs]
  split
  · next hnext =>
      rw [Cursor.tokens_of_next? hnext] at hrest
      cases hrest.head
  · exact ⟨_, rfl⟩

/-- Named arguments are read one after another. -/
theorem exact_pairs_cons {key : Text} {value : Expr} {more : List HashPair}
    (he : Exact (expr g) (Fronts Token.endsExpr) ls value)
    (h : Exact (pairs g) (Fronts Token.endsCall) ls' more) (hd : g.WritesPairs ls' more) :
    Exact (pairs g) (Fronts Token.endsCall)
      (⟨.ident key, s⟩ :: ⟨.equals, s'⟩ :: (ls ++ ls'))
      (⟨unbracket key, value,
        g.builder.locate (g.extentOf (⟨.ident key, s⟩ :: ⟨.equals, s'⟩ :: ls))⟩ :: more) := by
  intro c c' hreads hrest
  obtain ⟨c₃, hfirst, hmore⟩ := Cursor.Reads.exists_append
    (show c.Reads ((⟨.ident key, s⟩ :: ⟨.equals, s'⟩ :: ls) ++ ls') c' from hreads)
  have hplace := extent_of_reads (g := g) hfirst
  obtain ⟨c₁, hkey, hfirst⟩ := hfirst.exists_cons
  obtain ⟨c₂, hequals, hvalue⟩ := hfirst.exists_cons
  obtain ⟨hlt, hnext⟩ := hkey.next?
  obtain ⟨hlt', hnext'⟩ := hequals.next?
  have hends : Fronts Token.endsExpr c₃.tokens := by
    rw [hmore.tokens_eq]
    exact (endsParams_pairs (derives_of_writesPairs hd) hrest).endsExpr
  rw [pairs]
  simp only [hnext, hnext']
  refine (he hvalue hends).commit.bind fun _ => ?_
  refine (h hmore hrest).bind fun _ => ?_
  rw [← hplace]
  exact ⟨_, rfl⟩

/-- A call is read in three parts: its head, its arguments and its named arguments. -/
theorem exact_call {head : Expr} {list : List Expr} {named : List HashPair}
    (hhead : Exact (expr g) (Fronts Token.endsExpr) ls head)
    (hparams : Exact (params g) EndsParams ls' list) (hdparams : g.WritesExprs ls' list)
    (hpairs : Exact (pairs g) (Fronts Token.endsCall) ls'' named)
    (hdpairs : g.WritesPairs ls'' named) :
    Exact (call g) (Fronts Token.endsCall) (ls ++ (ls' ++ ls''))
      ⟨head, list, g.hashAt ls'' named⟩ := by
  intro c c' hreads hrest
  obtain ⟨c₁, hfirst, hreads⟩ := hreads.exists_append
  obtain ⟨c₂, hmiddle, hlast⟩ := hreads.exists_append
  have hends : EndsParams c₂.tokens := by
    rw [hlast.tokens_eq]
    exact endsParams_pairs (derives_of_writesPairs hdpairs) hrest
  have hends' : Fronts Token.endsExpr c₁.tokens := by
    rw [hmiddle.tokens_eq]
    exact fronts_exprs (derives_of_writesExprs hdparams) hends.endsExpr
  have hhash : g.hashOf c₂.start c' named = g.hashAt ls'' named := by
    cases hdpairs with
    | nil => rfl
    | cons _ _ =>
        show some (Hash.mk _ (g.builder.locate (g.extent c₂.start c'))) = _
        rw [extent_start_of_reads hlast (List.cons_ne_nil _ _)]
        rfl
  rw [call]
  refine (hhead hfirst hends').bind fun _ => ?_
  refine (hparams hmiddle hends).bind fun _ => ?_
  refine (hpairs hlast hrest).bind fun _ => ?_
  rw [← hhash]
  exact ⟨_, rfl⟩

mutual

/-- **An expression is read where it is written.** -/
theorem exact_of_writesExpr : ∀ {ls : List Lexeme} {e : Expr},
    g.WritesExpr ls e → Exact (expr g) (Fronts Token.endsExpr) ls e
  | _, _, .path h hpath => fun _ _ hreads hrest => (settles_path h hreads hrest).returns hpath
  | _, _, .data h hpath => fun _ _ hreads hrest => (settles_data h hreads hrest).returns hpath
  | _, _, .hash h hne => exact_hash (exact_pairs_of_writes h) h hne
  | _, _, .sub h => exact_sub (exact_of_writesCall h) h
  | _, _, .subPath h hmore hpath => exact_subPath (exact_of_writesCall h) h hmore hpath
  | _, _, .array h => exact_array (exact_items_of_writes h)
  | _, _, .string => exact_literal rfl .string
  | _, _, .number => exact_literal rfl .number
  | _, _, .boolean => exact_literal rfl .boolean
  | _, _, .undefined => exact_literal rfl .undefined
  | _, _, .null => exact_literal rfl .null

/-- **A call is read where it is written.** -/
theorem exact_of_writesCall : ∀ {ls : List Lexeme} {called : Call},
    g.WritesCall ls called → Exact (call g) (Fronts Token.endsCall) ls called
  | _, _, .mk hhead hparams hpairs =>
      exact_call (exact_of_writesExpr hhead) (exact_params_of_writes hparams) hparams
        (exact_pairs_of_writes hpairs) hpairs

theorem exact_params_of_writes : ∀ {ls : List Lexeme} {list : List Expr},
    g.WritesExprs ls list → Exact (params g) EndsParams ls list
  | _, _, .nil => exact_params_nil
  | _, _, .cons he h => exact_params_cons (exact_of_writesExpr he) he (exact_params_of_writes h) h

theorem exact_items_of_writes : ∀ {ls : List Lexeme} {list : List Expr},
    g.WritesExprs ls list → Exact (items g) (Fronts Token.endsCall) ls list
  | _, _, .nil => exact_items_nil
  | _, _, .cons he h => exact_items_cons (exact_of_writesExpr he) he (exact_items_of_writes h) h

theorem exact_pairs_of_writes : ∀ {ls : List Lexeme} {list : List HashPair},
    g.WritesPairs ls list → Exact (pairs g) (Fronts Token.endsCall) ls list
  | _, _, .nil => exact_pairs_nil
  | _, _, .cons hvalue h =>
      exact_pairs_cons (exact_of_writesExpr hvalue) (exact_pairs_of_writes h) h

end

/-! ## Tags -/

/-- The names of block parameters are read up to the bar that ends them. -/
theorem exact_idents {names : List Text} (h : WritesIdents ls names) :
    ∀ {c c' : Cursor} {rest : List Token}, c.Reads ls c' → c'.tokens = .paramsClose :: rest →
      ∃ hlt, idents c = ⟨names, c', hlt⟩ := by
  induction h with
  | nil =>
      intro c c' rest hreads hrest
      obtain rfl := hreads.eq_of_nil
      rw [idents]
      split
      · next hnext =>
          rw [Cursor.tokens_of_next? hnext] at hrest
          cases hrest
      · exact ⟨Parsed.fits_stay c, rfl⟩
  | cons _ ih =>
      intro c c' rest hreads hrest
      obtain ⟨c₁, hname, hreads⟩ := hreads.exists_cons
      obtain ⟨hlt, hnext⟩ := hname.next?
      obtain ⟨hlt', hmore⟩ := ih hreads hrest
      rw [idents]
      simp only [hnext]
      generalize idents c₁ = parsed at hmore ⊢
      subst hmore
      exact ⟨by omega, rfl⟩

/-- Block parameters are read in front of the end of the tag. -/
theorem exact_blockParams {names : Option (List Text)} (h : WritesNames ls names) :
    Exact blockParams (fun ts => ∃ closer rest, ts = .closer closer :: rest) ls names := by
  intro c c' hreads ⟨closer, rest, hrest⟩
  cases h with
  | none =>
      obtain rfl := hreads.eq_of_nil
      rw [blockParams]
      split
      · next hnext =>
          rw [Cursor.tokens_of_next? hnext] at hrest
          cases hrest
      · exact ⟨_, rfl⟩
  | some h hne =>
      obtain ⟨c₁, hopen, hreads⟩ := hreads.exists_cons
      obtain ⟨hlt, hnext⟩ := hopen.next?
      cases h with
      | nil => exact absurd rfl hne
      | cons h =>
          obtain ⟨c₃, hreads, hclose⟩ := hreads.exists_append
          obtain ⟨c₂, hname, hreads⟩ := hreads.exists_cons
          obtain ⟨hlt', hmore⟩ := exact_idents h hreads hclose.tokens_eq
          rw [blockParams]
          simp only [hnext]
          refine .commit ?_
          refine (returns_ident hname).bind fun _ => ?_
          dsimp only
          generalize idents c₂ = parsed at hmore ⊢
          subst hmore
          exact (returns_isToken hclose).bind fun _ => ⟨_, rfl⟩

/-- An opening tag.  The token in front tells which production reads the rest of it. -/
theorem exact_opening {c c' : Cursor} {kind : Opener} (named : Bool) {head : BlockOpening}
    (hkind : named = false ↔ kind = .inclusionBlock) (h : g.WritesOpening kind ls head)
    (hreads : c.Reads ls c') :
    ∃ span c₁, c.Reads [⟨.opener kind head.opener, span⟩] c₁ ∧
      Returns (opening g named head.opener c₁) head c' := by
  cases h with
  | mk hcall hnames hnone =>
      obtain ⟨c₁, hopen, hreads⟩ := hreads.exists_cons
      obtain ⟨c₃, hreads, hclose⟩ := hreads.exists_append
      obtain ⟨c₂, hreads, hreads'⟩ := hreads.exists_append
      refine ⟨_, c₁, hopen, .commit ?_⟩
      have hends : Fronts Token.endsCall c₂.tokens := by
        rw [hreads'.tokens_eq, hclose.tokens_eq]
        cases hnames with
        | none | some _ _ => exact .cons rfl
      refine (exact_of_writesCall hcall hreads hends).bind fun _ => ?_
      cases named with
      | true =>
          refine (exact_blockParams hnames hreads' ⟨_, _, hclose.tokens_eq⟩).bind fun _ => ?_
          exact (returns_closer hclose).bind fun _ => ⟨_, rfl⟩
      | false =>
          obtain rfl := hnone (hkind.mp rfl)
          cases hnames
          obtain rfl := hreads'.eq_of_nil
          exact (returns_closer hclose).bind fun _ => ⟨_, rfl⟩

/-- A closing tag is read, with a name or without one. -/
theorem exact_closing {tail : BlockClosing} (h : g.WritesClosing ls tail) :
    Exact (closing g) (fun _ => True) ls tail := by
  intro c c' hreads _
  cases h with
  | mk h =>
      obtain ⟨c₁, hopen, hreads⟩ := hreads.exists_cons
      obtain ⟨c₂, hreads, hclose⟩ := hreads.exists_append
      have hends : Fronts Token.endsExpr c₂.tokens := by
        rw [hclose.tokens_eq]
        exact .cons rfl
      refine (returns_blockClose hopen).bind fun _ => ?_
      refine .commit ?_
      refine (exact_of_writesExpr h hreads hends).bind fun _ => ?_
      exact (returns_closer hclose).bind fun _ => ⟨_, rfl⟩

/-- A tag around a call.  What is left to show is that its production ends behind the tag. -/
theorem exact_tag {t t' : Token} {called : Call} {make : Extent → Statement}
    (h : g.WritesCall ls called) (ht' : t'.endsCall = true)
    (hstatement : ∀ ⦃c c₁ c₂ c' : Cursor⦄, c.Reads [⟨t, s⟩] c₁ → Returns (call g c₁) called c₂ →
      c₂.Reads [⟨t', s'⟩] c' → Returns (statement g c) (make (g.extent s.start c')) c') :
    Exact (statement g) (fun _ => True) (⟨t, s⟩ :: (ls ++ [⟨t', s'⟩]))
      (make (g.extentOf (⟨t, s⟩ :: (ls ++ [⟨t', s'⟩])))) := by
  intro c c' hreads _
  rw [← extent_of_reads hreads]
  obtain ⟨c₁, hopen, hreads⟩ := hreads.exists_cons
  obtain ⟨c₂, hreads, hclose⟩ := hreads.exists_append
  have hends : Fronts Token.endsCall c₂.tokens := by
    rw [hclose.tokens_eq]
    exact .cons ht'
  exact hstatement hopen (exact_of_writesCall h hreads hends) hclose

/-- A call between double braces is a mustache. -/
theorem exact_plain {opener closer : Text} {called : Call} (h : g.WritesCall ls called) :
    Exact (statement g) (fun _ => True) (tag .plain opener s ls closer s')
      (g.builder.mustache opener called (.ofDelimiters opener closer)
        (g.extentOf (tag .plain opener s ls closer s'))) := by
  refine exact_tag h rfl fun c c₁ c₂ c' hopen hcall hclose => ?_
  obtain ⟨hlt, hnext⟩ := hopen.next?
  rw [statement]
  simp only [hnext]
  refine (Returns.commit ?_).bind fun _ => ⟨_, rfl⟩
  refine hcall.bind fun _ => ?_
  exact (returns_closer hclose).bind fun _ => ⟨_, rfl⟩

/-- A call between triple braces is a mustache. -/
theorem exact_unescaped {opener closer : Text} {called : Call} (h : g.WritesCall ls called) :
    Exact (statement g) (fun _ => True)
      (⟨.opener .unescaped opener, s⟩ :: (ls ++ [⟨.unescapedCloser closer, s'⟩]))
      (g.builder.mustache opener called (.ofDelimiters opener closer)
        (g.extentOf
          (⟨.opener .unescaped opener, s⟩ :: (ls ++ [⟨.unescapedCloser closer, s'⟩])))) := by
  refine exact_tag h rfl fun c c₁ c₂ c' hopen hcall hclose => ?_
  obtain ⟨hlt, hnext⟩ := hopen.next?
  rw [statement]
  simp only [hnext]
  refine (Returns.commit ?_).bind fun _ => ⟨_, rfl⟩
  refine hcall.bind fun _ => ?_
  exact (returns_unescapedCloser hclose).bind fun _ => ⟨_, rfl⟩

/-- A call behind a `>` is a partial. -/
theorem exact_inclusion {opener closer : Text} {called : Call} (h : g.WritesCall ls called) :
    Exact (statement g) (fun _ => True) (tag .inclusion opener s ls closer s')
      (g.builder.inclusion called (.ofDelimiters opener closer)
        (g.extentOf (tag .inclusion opener s ls closer s'))) := by
  refine exact_tag h rfl fun c c₁ c₂ c' hopen hcall hclose => ?_
  obtain ⟨hlt, hnext⟩ := hopen.next?
  rw [statement]
  simp only [hnext]
  refine (Returns.commit ?_).bind fun _ => ⟨_, rfl⟩
  refine hcall.bind fun _ => ?_
  exact (returns_closer hclose).bind fun _ => ⟨_, rfl⟩

/-! ## Raw blocks -/

/-- The texts of a raw block are read up to its closer. -/
theorem exact_contents {body : List Statement} (h : g.WritesContents ls body) :
    ∀ {c c' : Cursor} {name : Text} {rest : List Token}, c.Reads ls c' →
      c'.tokens = .rawEnd name :: rest → ∃ hlt, contents g c = ⟨body, c', hlt⟩ := by
  induction h with
  | nil =>
      intro c c' name rest hreads hrest
      obtain rfl := hreads.eq_of_nil
      rw [contents]
      split
      · next hnext =>
          rw [Cursor.tokens_of_next? hnext] at hrest
          cases hrest
      · exact ⟨Parsed.fits_stay c, rfl⟩
  | cons _ ih =>
      intro c c' name rest hreads hrest
      obtain ⟨c₁, hfirst, hreads⟩ := hreads.exists_cons
      obtain ⟨hlt, hnext⟩ := hfirst.next?
      obtain ⟨hlt', hmore⟩ := ih hreads hrest
      rw [contents]
      simp only [hnext]
      generalize contents g c₁ = parsed at hmore ⊢
      subst hmore
      rw [← extent_of_reads hfirst]
      exact ⟨by omega, rfl⟩

/-- A raw block is read, and the builder compares its names. -/
theorem settles_rawBlock {called : Call} {body : List Statement} {name : Text}
    (hcall : g.WritesCall ls called) (hbody : g.WritesContents ls' body) {c c' : Cursor}
    (hreads : c.Reads (⟨.rawOpener, s⟩ ::
      (ls ++ ⟨.rawCloser, s'⟩ :: (ls' ++ [⟨.rawEnd name, s''⟩]))) c') :
    Settles (statement g c) (g.builder.rawBlock called body name
      (g.extentOf (⟨.rawOpener, s⟩ ::
        (ls ++ ⟨.rawCloser, s'⟩ :: (ls' ++ [⟨.rawEnd name, s''⟩]))))) id c' := by
  rw [← extent_of_reads hreads]
  obtain ⟨c₁, hopen, hreads⟩ := hreads.exists_cons
  obtain ⟨c₂, hreads, hmore⟩ := hreads.exists_append
  obtain ⟨c₃, hmiddle, hmore⟩ := hmore.exists_cons
  obtain ⟨c₄, hinside, hclose⟩ := hmore.exists_append
  obtain ⟨hlt, hnext⟩ := hopen.next?
  have hends : Fronts Token.endsCall c₂.tokens := by
    rw [hmiddle.tokens_eq]
    exact .cons rfl
  obtain ⟨hlt', hcontents⟩ := exact_contents hbody hinside hclose.tokens_eq
  have hraw : Settles (rawBlock g s.start c₁)
      (g.builder.rawBlock called body name (g.extent s.start c')) id c' := by
    refine .commit ?_
    refine (exact_of_writesCall hcall hreads hends).settles fun _ => ?_
    refine (returns_isToken hmiddle).settles fun _ => ?_
    dsimp only
    generalize contents g c₃ = parsed at hcontents ⊢
    subst hcontents
    refine (returns_rawEnd hclose).settles fun _ => ?_
    exact settles_lift fun _ => ⟨_, rfl⟩
  rw [statement]
  simp only [hnext]
  exact hraw.bind fun _ _ => ⟨_, rfl⟩

/-! ## Statements -/

/-- A closing tag comes first. -/
def StartsClose (ts : List Token) : Prop := ∃ opener rest, ts = .opener .close opener :: rest

/-- A closing tag starts like one. -/
theorem startsClose_closing {tail : BlockClosing} {rest : List Token}
    (h : g.WritesClosing ls tail) : StartsClose (tokensOf ls ++ rest) := by
  cases h with
  | mk _ => exact ⟨_, _, rfl⟩

/-- What comes behind a body ends it: an else section, or else the closing tag. -/
theorem fronts_body {chains : Bool} {other : Option ElseSection} {rest : List Token}
    (h : g.WritesSection chains ls other) (hrest : StartsClose rest) :
    Fronts Token.endsBody (tokensOf ls ++ rest) := by
  obtain ⟨opener, rest', rfl⟩ := hrest
  exact fronts_section (derives_of_writesSection h) (.cons rfl)

/-- A block is read, and the builder has the last word on it. -/
theorem settles_block (inverted : Bool) {own : List Lexeme} {head : BlockOpening}
    {body : List Statement} {other : Option ElseSection} {tail : BlockClosing}
    (hhead : g.WritesOpening (if inverted then .inverse else .block) ls head)
    (hbody : Exact (statements g) (Fronts Token.endsBody) ls' body)
    (hother : Exact (section? g !inverted) StartsClose ls'' other)
    (hdother : g.WritesSection (!inverted) ls'' other) (htail : g.WritesClosing own tail)
    {c c' : Cursor} (hreads : c.Reads (ls ++ (ls' ++ (ls'' ++ own))) c') :
    Settles (statement g c) (g.builder.block head (Builder.program body none) other (some tail)
      inverted (g.extentOf (ls ++ (ls' ++ (ls'' ++ own))))) id c' := by
  have hall := hreads
  obtain ⟨c₂, hfront, hreads⟩ := hreads.exists_append
  obtain ⟨c₃, hmain, hreads⟩ := hreads.exists_append
  obtain ⟨c₄, hsection, hclose⟩ := hreads.exists_append
  have hends : StartsClose c₄.tokens := hclose.tokens_eq ▸ startsClose_closing htail
  have hends' : Fronts Token.endsBody c₃.tokens := hsection.tokens_eq ▸ fronts_body hdother hends
  cases inverted with
  | false | true =>
      obtain ⟨span, c₁, hopen, hopening⟩ := exact_opening true (by decide) hhead hfront
      rw [← extent_of_writesOpening hopen hhead hall]
      obtain ⟨hlt, hnext⟩ := hopen.next?
      rw [statement]
      simp only [hnext]
      refine hopening.settles fun _ => ?_
      refine .commit ?_
      refine (hbody hmain hends').settles fun _ => ?_
      refine (hother hsection hends).settles fun _ => ?_
      refine (exact_closing htail hclose trivial).settles fun _ => ?_
      exact settles_lift fun _ => ⟨_, rfl⟩

/-- A partial block is read, and the builder compares its names. -/
theorem settles_inclusionBlock {head : BlockOpening} {body : List Statement} {tail : BlockClosing}
    (hhead : g.WritesOpening .inclusionBlock ls head)
    (hbody : Exact (statements g) (Fronts Token.endsBody) ls' body)
    (htail : g.WritesClosing ls'' tail) {c c' : Cursor}
    (hreads : c.Reads (ls ++ (ls' ++ ls'')) c') :
    Settles (statement g c) (g.builder.inclusionBlock head (Builder.program body none) tail
      (g.extentOf (ls ++ (ls' ++ ls'')))) id c' := by
  have hall := hreads
  obtain ⟨c₂, hfront, hreads⟩ := hreads.exists_append
  obtain ⟨c₃, hmain, hclose⟩ := hreads.exists_append
  have hends : Fronts Token.endsBody c₃.tokens :=
    hclose.tokens_eq ▸ fronts_closing (derives_of_writesClosing htail)
  obtain ⟨span, c₁, hopen, hopening⟩ := exact_opening false (by decide) hhead hfront
  rw [← extent_of_writesOpening hopen hhead hall]
  obtain ⟨hlt, hnext⟩ := hopen.next?
  rw [statement]
  simp only [hnext]
  refine hopening.settles fun _ => ?_
  refine .commit ?_
  refine (hbody hmain hends).settles fun _ => ?_
  refine (exact_closing htail hclose trivial).settles fun _ => ?_
  exact settles_lift fun _ => ⟨_, rfl⟩

theorem exact_content {text : Text} :
    Exact (statement g) (fun _ => True) [⟨.content text, s⟩]
      (g.builder.content text (g.extentOf [⟨.content text, s⟩])) := by
  intro c c' hreads _
  rw [← extent_of_reads hreads]
  obtain ⟨hlt, hnext⟩ := hreads.next?
  rw [statement]
  simp only [hnext]
  exact ⟨hlt, rfl⟩

theorem exact_comment {text : Text} :
    Exact (statement g) (fun _ => True) [⟨.comment text, s⟩]
      (g.builder.comment text (g.extentOf [⟨.comment text, s⟩])) := by
  intro c c' hreads _
  rw [← extent_of_reads hreads]
  obtain ⟨hlt, hnext⟩ := hreads.next?
  rw [statement]
  simp only [hnext]
  exact ⟨hlt, rfl⟩

theorem exact_statements_nil : Exact (statements g) (Fronts Token.endsBody) [] [] := by
  intro c c' hreads hrest
  obtain rfl := hreads.eq_of_nil
  rw [statements]
  split
  · next hstart =>
      rw [Cursor.peek?_eq] at hstart
      cases hhead : c.tokens.head? with
      | none =>
          rw [hhead] at hstart
          cases hstart
      | some t =>
          have hend := hrest t hhead
          rw [hhead] at hstart
          rw [Token.endsBody, show t.startsStatement = true from hstart] at hend
          cases hend
  · exact ⟨_, rfl⟩

/-- Statements are read one after another. -/
theorem exact_statements_cons {first : Statement} {more : List Statement}
    (hs : Exact (statement g) (fun _ => True) ls first) (hds : g.WritesStatement ls first)
    (h : Exact (statements g) (Fronts Token.endsBody) ls' more) :
    Exact (statements g) (Fronts Token.endsBody) (ls ++ ls') (first :: more) := by
  intro c c' hreads hrest
  obtain ⟨c₁, hfirst, hreads⟩ := hreads.exists_append
  have hstart : c.peek?.any Token.startsStatement = true := by
    obtain ⟨t, ts, hts, ht⟩ := exists_of_statement (derives_of_writesStatement hds)
    rw [Cursor.peek?_eq, hfirst.tokens_eq, hts]
    exact ht
  rw [statements, if_pos hstart]
  refine (hs hfirst trivial).bind fun _ => ?_
  exact (h hreads hrest).bind fun _ => ⟨_, rfl⟩

/-! ## Else sections -/

/-- Where a block is closed at once, it has no else section. -/
theorem exact_section_none {chains : Bool} : Exact (section? g chains) StartsClose [] none := by
  rintro c c' hreads ⟨opener, rest, hrest⟩
  obtain rfl := hreads.eq_of_nil
  rw [section?]
  split
  · next hnext =>
      rw [Cursor.tokens_of_next? hnext] at hrest
      cases hrest
  · next hnext =>
      rw [Cursor.tokens_of_next? hnext] at hrest
      cases hrest
  · exact ⟨_, rfl⟩

/-- An else tag without a head starts the last section. -/
theorem exact_section_plain {chains : Bool} {text : Text} {body : List Statement}
    (h : Exact (statements g) (Fronts Token.endsBody) ls body) :
    Exact (section? g chains) StartsClose (⟨.elseTag text, s⟩ :: ls)
      (some ⟨.ofDelimiters text text, Builder.program body none, false⟩) := by
  rintro c c' hreads ⟨opener, rest, hrest⟩
  obtain ⟨c₁, hmark, hreads⟩ := hreads.exists_cons
  obtain ⟨hlt, hnext⟩ := hmark.next?
  rw [section?]
  simp only [hnext]
  exact (h hreads (hrest ▸ .cons rfl)).bind fun _ => ⟨_, rfl⟩

/-- An else tag with a head starts a link of the chain. -/
theorem exact_section_link {head : BlockOpening} {body : List Statement}
    {other : Option ElseSection} {block : Statement} (hhead : g.WritesOpening .chain ls head)
    (hbody : Exact (statements g) (Fronts Token.endsBody) ls' body)
    (hother : Exact (section? g true) StartsClose ls'' other)
    (hdother : g.WritesSection true ls'' other)
    (hblock : g.builder.block head (Builder.program body none) other
      (other.map fun s => (⟨none, s.strip⟩ : BlockClosing)) false
      (g.extentOf (ls ++ (ls' ++ ls''))) = .ok block) :
    Exact (section? g true) StartsClose (ls ++ (ls' ++ ls''))
      (some ⟨head.strip, Builder.chainedProgram block (Builder.program body none).loc, true⟩) := by
  intro c c' hreads hends
  have hall := hreads
  obtain ⟨c₂, hfront, hreads⟩ := hreads.exists_append
  obtain ⟨c₃, hmain, hsection⟩ := hreads.exists_append
  have hends' : Fronts Token.endsBody c₃.tokens := hsection.tokens_eq ▸ fronts_body hdother hends
  obtain ⟨span, c₁, hopen, hopening⟩ := exact_opening true (by decide) hhead hfront
  rw [← extent_of_writesOpening hopen hhead hall] at hblock
  obtain ⟨hlt, hnext⟩ := hopen.next?
  rw [section?]
  simp only [hnext, if_true]
  refine hopening.bind fun _ => ?_
  refine .commit ?_
  refine (hbody hmain hends').bind fun _ => ?_
  refine (hother hsection hends).bind fun _ => ?_
  exact .lift hblock ⟨_, rfl⟩

/-! ## All statements -/

mutual

theorem exact_of_writesStatements : ∀ {ls : List Lexeme} {body : List Statement},
    g.WritesStatements ls body → Exact (statements g) (Fronts Token.endsBody) ls body
  | _, _, .nil => exact_statements_nil
  | _, _, .cons hs h =>
      exact_statements_cons (exact_of_writesStatement hs) hs (exact_of_writesStatements h)

theorem exact_of_writesStatement : ∀ {ls : List Lexeme} {node : Statement},
    g.WritesStatement ls node → Exact (statement g) (fun _ => True) ls node
  | _, _, .content => exact_content
  | _, _, .comment => exact_comment
  | _, _, .plain h => exact_plain h
  | _, _, .unescaped h => exact_unescaped h
  | _, _, .inclusion h => exact_inclusion h
  | _, _, .rawBlock hcall hbody hblock => fun _ _ hreads _ =>
      (settles_rawBlock hcall hbody hreads).returns hblock
  | _, _, .block hhead hbody hother htail hblock => fun _ _ hreads _ =>
      (settles_block _ hhead (exact_of_writesStatements hbody) (exact_of_writesSection hother)
        hother htail hreads).returns hblock
  | _, _, .inclusionBlock hhead hbody htail hblock => fun _ _ hreads _ =>
      (settles_inclusionBlock hhead (exact_of_writesStatements hbody) htail hreads).returns hblock

theorem exact_of_writesSection : ∀ {chains : Bool} {ls : List Lexeme} {other : Option ElseSection},
    g.WritesSection chains ls other → Exact (section? g chains) StartsClose ls other
  | _, _, _, .none => exact_section_none
  | _, _, _, .plain h => exact_section_plain (exact_of_writesStatements h)
  | _, _, _, .link hhead hbody hother hblock =>
      exact_section_link hhead (exact_of_writesStatements hbody) (exact_of_writesSection hother)
        hother hblock

end

/-- **The grammar reads what is written.**  It returns the program that the tokens write. -/
theorem program_eq_ok {p : Program} (h : g.WritesProgram ls p) : g.program ls = .ok p := by
  cases h with
  | mk h =>
      have hreads : Cursor.Reads ⟨⟨0, 0⟩, ls⟩ ls ⟨endOf ⟨0, 0⟩ ls, []⟩ :=
        ⟨(List.append_nil ls).symm, rfl⟩
      obtain ⟨hlt, hbody⟩ := exact_of_writesStatements h hreads .nil
      rw [program, hbody]
      rfl

/-- The tokens of a statement are a template of their own. -/
theorem program_of_writesStatement {s : Statement} (h : g.WritesStatement ls s) :
    g.program ls = .ok (Builder.program [s] none) := by
  have hstatements := WritesStatements.cons h .nil
  rw [List.append_nil] at hstatements
  exact program_eq_ok (.mk hstatements)

/-- The grammar returns a program if and only if the tokens write it. -/
theorem program_eq_ok_iff {p : Program} : g.program ls = .ok p ↔ g.WritesProgram ls p :=
  ⟨writesProgram_of_program, program_eq_ok⟩

/-- The same, with a report in place of a refusal. -/
theorem parse_eq_ok_iff {p : Program} : g.parse ls = .ok p ↔ g.WritesProgram ls p :=
  ⟨fun h => program_eq_ok_iff.mp (program_of_parse h),
    fun h => parse_of_program (program_eq_ok_iff.mpr h)⟩

end Grammar
end Stache
