import Stache.Proofs.Grammar.BareNodes

/-!
# The same tokens in two texts

Tokens that stand in two texts, with the same characters under them in both, write the same trees
up to places (`mirrored_of_writesStatements`).  What they write in one text they write in the
other: the builder never refuses a node for its place.

`Mirrors` is the relation between the two lists of tokens.  It splits where either list splits, so
the proof is an induction over the derivation: each alternative takes the tokens apart, carries
its parts over and puts them together again.

A caller who makes expressions of lists or of named arguments can tell places apart, so this is
about builders for which such places make no difference (`Builder.Placeless`).
-/

namespace Stache

/-! ## Places in the functions of a caller -/

namespace Builder

/-- What the functions of the caller make depends on places in places only. -/
structure Placeless (b : Builder) : Prop where
  list : ∀ ⦃build⦄, b.brackets = .custom build → ∀ ⦃items items'⦄ (loc loc' : Location),
    exprsUnlocated items' = exprsUnlocated items →
      (build items' loc').unlocated = (build items loc).unlocated
  named : ∀ ⦃build⦄, b.hashes = .custom build → ∀ ⦃hash hash' : Hash⦄ (loc loc' : Location),
    hash'.unlocated = hash.unlocated → (build hash' loc').unlocated = (build hash loc).unlocated

variable {b : Builder}

/-- A list of the same expressions is the same at any place. -/
theorem Placeless.array (h : b.Placeless) {items items' : List Expr} (x x' : Extent)
    (hitems : exprsUnlocated items' = exprsUnlocated items) :
    (b.array items' x').unlocated = (b.array items x).unlocated := by
  rw [Builder.array, Builder.array]
  split
  · next build hbuild => exact h.list hbuild _ _ hitems
  · exact congrArg (Expr.array · .nowhere) hitems
  · exact congrArg (Expr.array · .nowhere) hitems

/-- A literal of the same pairs is the same at any place. -/
theorem Placeless.hashLiteral (h : b.Placeless) {hash hash' : Hash} (x x' : Extent)
    (hhash : hash'.unlocated = hash.unlocated) :
    (b.hashLiteral hash' x').unlocated = (b.hashLiteral hash x).unlocated := by
  rw [Builder.hashLiteral, Builder.hashLiteral]
  split
  · next build hbuild => exact h.named hbuild _ _ hhash
  · obtain ⟨pairs, _⟩ := hash
    obtain ⟨pairs', _⟩ := hash'
    exact congrArg (Expr.hash · .nowhere) (Hash.mk.inj hhash).1

/-- Without functions of a caller there is nothing to ask. -/
theorem placeless_of_literal {g : Grammar} (h : g.Literal) : g.builder.Placeless where
  list _ hbuild := absurd hbuild (h.1 _)
  named _ hbuild := absurd hbuild (h.2 _)

/-- A path is refused for its segments, not for its place. -/
theorem exists_path {data : Bool} {head : Option SubExpr} {segments : List Segment}
    {q : PathPrefix} (h : segments.foldlM PathPrefix.add ⟨pathStart data head, [], 0⟩ = .ok q)
    (x : Extent) : ∃ p, b.path data head segments x = .ok p := by
  cases head <;> cases data
  all_goals
    rw [path.eq_def]
    dsimp only
    split
    · next herror => cases h.symm.trans herror
    · exact ⟨_, rfl⟩

/-- The builder makes a path of the same parts at any place. -/
theorem exists_path_of_unlocated {data : Bool} {head head' : Option SubExpr}
    {segments : List Segment} {x : Extent} {p : Path} (h : b.path data head segments x = .ok p)
    (hhead : head'.map SubExpr.unlocated = head.map SubExpr.unlocated) (x' : Extent) :
    ∃ p', b.path data head' segments x' = .ok p' ∧ p'.unlocated = p.unlocated := by
  obtain ⟨q, hq, -⟩ := exists_of_path h
  rw [← pathStart_unlocated data hhead] at hq
  obtain ⟨p', hp'⟩ := exists_path (b := b) hq x'
  exact ⟨p', hp', unlocated_of_path hhead (fun _ => rfl) h hp'⟩

end Builder

namespace Grammar

/-! ## Tokens with the same characters under them -/

/-- The tokens `ls'` of one text are those of `ls` in another, and each piece has the same
characters under it in both. -/
structure Mirrors (g g' : Grammar) (ls ls' : List Lexeme) : Prop where
  builder : g'.builder = g.builder
  tokens : tokensOf ls' = tokensOf ls
  slices : ∀ ⦃before own after before' own' after'⦄, ls = before ++ (own ++ after) →
    ls' = before' ++ (own' ++ after') → before'.length = before.length →
    own'.length = own.length →
    g'.text.slice (covered own').start (covered own').stop =
      g.text.slice (covered own).start (covered own).stop

namespace Mirrors

variable {g g' : Grammar} {t t' : Token} {s s' : Span} {ls ls' own own' : List Lexeme}

/-- No token is more or less. -/
theorem length_eq (h : Mirrors g g' ls ls') : ls'.length = ls.length := by
  have hlength := congrArg List.length h.tokens
  rwa [tokensOf, tokensOf, List.length_map, List.length_map] at hlength

/-- Both lists split at the same token. -/
theorem tokens_append (h : Mirrors g g' (ls ++ own) (ls' ++ own'))
    (hlength : ls'.length = ls.length) :
    tokensOf ls' = tokensOf ls ∧ tokensOf own' = tokensOf own := by
  have htokens := h.tokens
  rw [tokensOf_append, tokensOf_append] at htokens
  have hfront : (tokensOf ls').length = (tokensOf ls).length := by
    rw [tokensOf, tokensOf, List.length_map, List.length_map, hlength]
  exact List.append_inj htokens hfront

/-- The first parts of two mirrored lists mirror each other. -/
theorem left (h : Mirrors g g' (ls ++ own) (ls' ++ own')) (hlength : ls'.length = ls.length) :
    Mirrors g g' ls ls' := by
  refine ⟨h.builder, (h.tokens_append hlength).1, ?_⟩
  intro before piece after before' piece' after' hls hls'
  have hall : ls ++ own = before ++ (piece ++ (after ++ own)) := by
    rw [hls, List.append_assoc, List.append_assoc]
  have hall' : ls' ++ own' = before' ++ (piece' ++ (after' ++ own')) := by
    rw [hls', List.append_assoc, List.append_assoc]
  exact h.slices hall hall'

/-- The second parts of two mirrored lists mirror each other. -/
theorem right (h : Mirrors g g' (ls ++ own) (ls' ++ own')) (hlength : ls'.length = ls.length) :
    Mirrors g g' own own' := by
  refine ⟨h.builder, (h.tokens_append hlength).2, ?_⟩
  intro before piece after before' piece' after' hls hls' hbefore
  have hall : ls ++ own = (ls ++ before) ++ (piece ++ after) := by rw [hls, List.append_assoc]
  have hall' : ls' ++ own' = (ls' ++ before') ++ (piece' ++ after') := by
    rw [hls', List.append_assoc]
  refine h.slices hall hall' ?_
  rw [List.length_append, List.length_append, hlength, hbefore]

/-- The other tokens split where these do. -/
theorem exists_append (h : Mirrors g g' (ls ++ own) ls') :
    ∃ front back, ls' = front ++ back ∧ Mirrors g g' ls front ∧ Mirrors g g' own back := by
  have hlength := h.length_eq
  rw [List.length_append] at hlength
  have hfront : (ls'.take ls.length).length = ls.length := by
    rw [List.length_take]
    omega
  rw [← List.take_append_drop ls.length ls'] at h
  exact ⟨_, _, (List.take_append_drop _ _).symm, h.left hfront, h.right hfront⟩

theorem eq_nil (h : Mirrors g g' [] ls') : ls' = [] := List.eq_nil_of_length_eq_zero h.length_eq

/-- A single token is mirrored by a single token. -/
theorem exists_singleton (h : Mirrors g g' [⟨t, s⟩] ls') : ∃ s', ls' = [⟨t, s'⟩] := by
  obtain ⟨l, rfl⟩ := List.length_eq_one_iff.mp h.length_eq
  obtain ⟨t', s'⟩ := l
  obtain ⟨rfl, -⟩ := List.cons.inj h.tokens
  exact ⟨s', rfl⟩

/-- The first tokens are the same, and what follows is mirrored. -/
theorem exists_cons (h : Mirrors g g' (⟨t, s⟩ :: ls) ls') :
    ∃ s' back, ls' = ⟨t, s'⟩ :: back ∧ Mirrors g g' ls back := by
  obtain ⟨front, back, rfl, hfront, hback⟩ :=
    (show Mirrors g g' ([⟨t, s⟩] ++ ls) ls' from h).exists_append
  obtain ⟨s', rfl⟩ := hfront.exists_singleton
  exact ⟨s', back, rfl, hback⟩

/-- Tokens between two others. -/
theorem exists_between (h : Mirrors g g' (⟨t, s⟩ :: (ls ++ [⟨t', s'⟩])) own) :
    ∃ s₁ s₂ ls', own = ⟨t, s₁⟩ :: (ls' ++ [⟨t', s₂⟩]) ∧ Mirrors g g' ls ls' := by
  obtain ⟨s₁, back, rfl, hback⟩ := h.exists_cons
  obtain ⟨ls', last, rfl, hinside, hlast⟩ := hback.exists_append
  obtain ⟨s₂, rfl⟩ := hlast.exists_singleton
  exact ⟨s₁, s₂, ls', rfl, hinside⟩

/-- The whole of both lists has the same text under it. -/
theorem slice (h : Mirrors g g' ls ls') :
    g'.text.slice (covered ls').start (covered ls').stop =
      g.text.slice (covered ls).start (covered ls).stop := by
  have hall : ∀ list : List Lexeme, list = [] ++ (list ++ []) := fun list =>
    (List.append_nil list).symm
  exact h.slices (hall ls) (hall ls') rfl h.length_eq

end Mirrors

/-! ## Phrases without places -/

section Paths

variable {g g' : Grammar} {ls ls' : List Lexeme}

theorem mirrored_tail {segments : List Segment} (h : WritesTail ls segments)
    (hm : Mirrors g g' ls ls') : WritesTail ls' segments := by
  induction h generalizing ls' with
  | nil =>
      obtain rfl := hm.eq_nil
      exact .nil
  | cons _ ih =>
      obtain ⟨_, _, rfl, hname⟩ := hm.exists_cons
      obtain ⟨_, _, rfl, hmore⟩ := hname.exists_cons
      exact .cons (ih hmore)

/-- Segments depend on tokens only. -/
theorem mirrored_segments {segments : List Segment} (h : WritesSegments ls segments)
    (hm : Mirrors g g' ls ls') : WritesSegments ls' segments := by
  cases h with
  | mk h =>
      obtain ⟨_, _, rfl, hmore⟩ := hm.exists_cons
      exact .mk (mirrored_tail h hmore)

theorem mirrored_idents {names : List Text} (h : WritesIdents ls names)
    (hm : Mirrors g g' ls ls') : WritesIdents ls' names := by
  induction h generalizing ls' with
  | nil =>
      obtain rfl := hm.eq_nil
      exact .nil
  | cons _ ih =>
      obtain ⟨_, _, rfl, hmore⟩ := hm.exists_cons
      exact .cons (ih hmore)

/-- Block parameters depend on tokens only. -/
theorem mirrored_names {names : Option (List Text)} (h : WritesNames ls names)
    (hm : Mirrors g g' ls ls') : WritesNames ls' names := by
  cases h with
  | none =>
      obtain rfl := hm.eq_nil
      exact .none
  | some h hne =>
      obtain ⟨_, _, _, rfl, hinside⟩ := hm.exists_between
      exact .some (mirrored_idents h hinside) hne

end Paths

variable {g g' : Grammar}

variable (g g') in
/-- Wherever the tokens stand, they write the same as here, up to what `bare` takes away. -/
def Mirrored {α β : Type} (Writes : Grammar → List Lexeme → α → Prop) (bare : α → β)
    (ls : List Lexeme) (a : α) : Prop :=
  ∀ ⦃ls' : List Lexeme⦄, Mirrors g g' ls ls' → ∃ a', Writes g' ls' a' ∧ bare a' = bare a

variable {ls ls' ls'' : List Lexeme} {s s₁ s₂ : Span}

/-! ## Expressions -/

/-- A path is written wherever its tokens stand, for the builder never refuses it for its
place. -/
theorem mirrored_path {segments : List Segment} {p : Path} (h : WritesSegments ls segments)
    (hpath : g.builder.path false none segments (g.extentOf ls) = .ok p) :
    Mirrored g g' WritesExpr Expr.unlocated ls (.path p) := by
  intro own hm
  rw [← hm.builder] at hpath
  obtain ⟨p', hpath', hsame⟩ := Builder.exists_path_of_unlocated hpath rfl (g'.extentOf own)
  exact ⟨_, .path (mirrored_segments h hm) hpath', congrArg Expr.path hsame⟩

/-- The same of a path behind an `@`. -/
theorem mirrored_data {segments : List Segment} {p : Path} (h : WritesSegments ls segments)
    (hpath : g.builder.path true none segments (g.extentOf (⟨.data, s⟩ :: ls)) = .ok p) :
    Mirrored g g' WritesExpr Expr.unlocated (⟨.data, s⟩ :: ls) (.path p) := by
  intro own hm
  rw [← hm.builder] at hpath
  obtain ⟨s', ls', rfl, hsegments⟩ := hm.exists_cons
  obtain ⟨p', hpath', hsame⟩ := Builder.exists_path_of_unlocated hpath rfl
    (g'.extentOf (⟨.data, s'⟩ :: ls'))
  exact ⟨_, .data (mirrored_segments h hsegments) hpath', congrArg Expr.path hsame⟩

/-- Named arguments in parentheses are written wherever their tokens stand. -/
theorem mirrored_hash (hb : g.builder.Placeless) {pairs : List HashPair}
    (h : Mirrored g g' WritesPairs pairsUnlocated ls pairs) (hne : pairs ≠ []) {x : Extent}
    {loc : Location} :
    Mirrored g g' WritesExpr Expr.unlocated (parens s ls s₁)
      (g.builder.hashLiteral ⟨pairs, loc⟩ x) := by
  intro own hm
  obtain ⟨s', s₁', ls', rfl, hpairs⟩ := hm.exists_between
  obtain ⟨pairs', h', hsame⟩ := h hpairs
  have hne' : pairs' ≠ [] := by
    rintro rfl
    cases pairs with
    | nil => exact hne rfl
    | cons _ _ => cases hsame
  refine ⟨_, .hash h' hne', ?_⟩
  rw [hm.builder]
  exact hb.hashLiteral _ _ (congrArg (Hash.mk · .nowhere) hsame)

/-- A call in parentheses is written wherever its tokens stand. -/
theorem mirrored_sub {called : Call} (h : Mirrored g g' WritesCall Call.unlocated ls called) :
    Mirrored g g' WritesExpr Expr.unlocated (parens s ls s₁)
      (.sub (g.subOf called (parens s ls s₁))) := by
  intro own hm
  obtain ⟨s', s₁', ls', rfl, hcall⟩ := hm.exists_between
  obtain ⟨called', h', hsame⟩ := h hcall
  exact ⟨_, .sub h', congrArg Expr.sub (unlocated_subOf hsame hm.slice)⟩

/-- A path that starts with a call is written wherever its tokens stand. -/
theorem mirrored_subPath {kind : Separator} {called : Call} {segments : List Segment} {p : Path}
    (h : Mirrored g g' WritesCall Call.unlocated ls called) (hmore : WritesSegments ls'' segments)
    (hpath : g.builder.path false (some (g.subOf called (parens s ls s₁))) segments
      (g.extentOf (parens s ls s₁ ++ ⟨.separator kind, s₂⟩ :: ls'')) = .ok p) :
    Mirrored g g' WritesExpr Expr.unlocated (parens s ls s₁ ++ ⟨.separator kind, s₂⟩ :: ls'')
      (.path p) := by
  intro own hm
  rw [← hm.builder] at hpath
  obtain ⟨front, back, rfl, hfront, hback⟩ := hm.exists_append
  obtain ⟨s', s₁', ls', rfl, hcall⟩ := hfront.exists_between
  obtain ⟨s₂', own, rfl, hown⟩ := hback.exists_cons
  obtain ⟨called', h', hsame⟩ := h hcall
  have hsub : (some (g'.subOf called' (parens s' ls' s₁'))).map SubExpr.unlocated =
      (some (g.subOf called (parens s ls s₁))).map SubExpr.unlocated :=
    congrArg some (unlocated_subOf hsame hfront.slice)
  obtain ⟨p', hpath', hsame'⟩ := Builder.exists_path_of_unlocated hpath hsub
    (g'.extentOf (parens s' ls' s₁' ++ ⟨.separator kind, s₂'⟩ :: own))
  exact ⟨_, .subPath h' (mirrored_segments hmore hown) hpath', congrArg Expr.path hsame'⟩

/-- A list in brackets is written wherever its tokens stand. -/
theorem mirrored_array (hb : g.builder.Placeless) {items : List Expr}
    (h : Mirrored g g' WritesExprs exprsUnlocated ls items) {x : Extent} :
    Mirrored g g' WritesExpr Expr.unlocated (brackets s ls s₁) (g.builder.array items x) := by
  intro own hm
  obtain ⟨s', s₁', ls', rfl, hitems⟩ := hm.exists_between
  obtain ⟨items', h', hsame⟩ := h hitems
  refine ⟨_, .array h', ?_⟩
  rw [hm.builder]
  exact hb.array _ _ hsame

/-- A literal is one token. -/
theorem mirrored_literal {t : Token} {e : Expr}
    (h : ∀ s', ∃ e', g'.WritesExpr [⟨t, s'⟩] e' ∧ e'.unlocated = e.unlocated) :
    Mirrored g g' WritesExpr Expr.unlocated [⟨t, s⟩] e := by
  intro own hm
  obtain ⟨s', rfl⟩ := hm.exists_singleton
  exact h s'

/-- A call is written in parts, each wherever its tokens stand. -/
theorem mirrored_call {head : Expr} {params : List Expr} {pairs : List HashPair}
    (hhead : Mirrored g g' WritesExpr Expr.unlocated ls head)
    (hparams : Mirrored g g' WritesExprs exprsUnlocated ls' params)
    (hpairs : Mirrored g g' WritesPairs pairsUnlocated ls'' pairs) :
    Mirrored g g' WritesCall Call.unlocated (ls ++ (ls' ++ ls''))
      ⟨head, params, g.hashAt ls'' pairs⟩ := by
  intro own hm
  obtain ⟨front, back, rfl, hfront, hback⟩ := hm.exists_append
  obtain ⟨middle, last, rfl, hmiddle, hlast⟩ := hback.exists_append
  obtain ⟨head', hhead', hsame⟩ := hhead hfront
  obtain ⟨params', hparams', hsame'⟩ := hparams hmiddle
  obtain ⟨pairs', hpairs', hsame''⟩ := hpairs hlast
  refine ⟨_, .mk hhead' hparams' hpairs', ?_⟩
  rw [Call.unlocated, Call.unlocated, hsame, hsame', unlocated_hashAt hsame'']

theorem mirrored_exprsNil : Mirrored g g' WritesExprs exprsUnlocated [] [] := by
  intro own hm
  obtain rfl := hm.eq_nil
  exact ⟨_, .nil, rfl⟩

/-- Arguments are written one by one. -/
theorem mirrored_exprsCons {e : Expr} {more : List Expr}
    (he : Mirrored g g' WritesExpr Expr.unlocated ls e)
    (h : Mirrored g g' WritesExprs exprsUnlocated ls' more) :
    Mirrored g g' WritesExprs exprsUnlocated (ls ++ ls') (e :: more) := by
  intro own hm
  obtain ⟨front, back, rfl, hfront, hback⟩ := hm.exists_append
  obtain ⟨e', he', hsame⟩ := he hfront
  obtain ⟨more', h', hsame'⟩ := h hback
  refine ⟨_, .cons he' h', ?_⟩
  rw [exprsUnlocated, exprsUnlocated, hsame, hsame']

theorem mirrored_pairsNil : Mirrored g g' WritesPairs pairsUnlocated [] [] := by
  intro own hm
  obtain rfl := hm.eq_nil
  exact ⟨_, .nil, rfl⟩

/-- Named arguments are written one by one. -/
theorem mirrored_pairsCons {key : Text} {value : Expr} {more : List HashPair} {loc : Location}
    (hvalue : Mirrored g g' WritesExpr Expr.unlocated ls value)
    (h : Mirrored g g' WritesPairs pairsUnlocated ls' more) :
    Mirrored g g' WritesPairs pairsUnlocated (⟨.ident key, s⟩ :: ⟨.equals, s₁⟩ :: (ls ++ ls'))
      (⟨unbracket key, value, loc⟩ :: more) := by
  intro own hm
  obtain ⟨_, _, rfl, hequals⟩ := hm.exists_cons
  obtain ⟨_, _, rfl, hboth⟩ := hequals.exists_cons
  obtain ⟨front, back, rfl, hfront, hback⟩ := hboth.exists_append
  obtain ⟨value', hvalue', hsame⟩ := hvalue hfront
  obtain ⟨more', h', hsame'⟩ := h hback
  refine ⟨_, .cons hvalue' h', ?_⟩
  rw [pairsUnlocated, pairsUnlocated, HashPair.unlocated, HashPair.unlocated, hsame, hsame']

mutual

/-- **What an expression is does not depend on where its tokens stand.** -/
theorem mirrored_of_writesExpr (hb : g.builder.Placeless) : ∀ {ls : List Lexeme} {e : Expr},
    g.WritesExpr ls e → Mirrored g g' WritesExpr Expr.unlocated ls e
  | _, _, .path h hpath => mirrored_path h hpath
  | _, _, .data h hpath => mirrored_data h hpath
  | _, _, .hash h hne => mirrored_hash hb (mirrored_of_writesPairs hb h) hne
  | _, _, .sub h => mirrored_sub (mirrored_of_writesCall hb h)
  | _, _, .subPath h hmore hpath => mirrored_subPath (mirrored_of_writesCall hb h) hmore hpath
  | _, _, .array h => mirrored_array hb (mirrored_of_writesExprs hb h)
  | _, _, .string => mirrored_literal fun _ => ⟨_, .string, rfl⟩
  | _, _, .number => mirrored_literal fun _ => ⟨_, .number, rfl⟩
  | _, _, .boolean => mirrored_literal fun _ => ⟨_, .boolean, rfl⟩
  | _, _, .undefined => mirrored_literal fun _ => ⟨_, .undefined, rfl⟩
  | _, _, .null => mirrored_literal fun _ => ⟨_, .null, rfl⟩

/-- **What a call is does not depend on where its tokens stand.** -/
theorem mirrored_of_writesCall (hb : g.builder.Placeless) : ∀ {ls : List Lexeme} {called : Call},
    g.WritesCall ls called → Mirrored g g' WritesCall Call.unlocated ls called
  | _, _, .mk hhead hparams hpairs =>
      mirrored_call (mirrored_of_writesExpr hb hhead) (mirrored_of_writesExprs hb hparams)
        (mirrored_of_writesPairs hb hpairs)

theorem mirrored_of_writesExprs (hb : g.builder.Placeless) :
    ∀ {ls : List Lexeme} {list : List Expr}, g.WritesExprs ls list →
      Mirrored g g' WritesExprs exprsUnlocated ls list
  | _, _, .nil => mirrored_exprsNil
  | _, _, .cons he h =>
      mirrored_exprsCons (mirrored_of_writesExpr hb he) (mirrored_of_writesExprs hb h)

theorem mirrored_of_writesPairs (hb : g.builder.Placeless) :
    ∀ {ls : List Lexeme} {list : List HashPair}, g.WritesPairs ls list →
      Mirrored g g' WritesPairs pairsUnlocated ls list
  | _, _, .nil => mirrored_pairsNil
  | _, _, .cons hvalue h =>
      mirrored_pairsCons (mirrored_of_writesExpr hb hvalue) (mirrored_of_writesPairs hb h)

end

/-! ## Tags -/

/-- An opening tag is written wherever its tokens stand, up to its markers. -/
theorem mirrored_opening (hb : g.builder.Placeless) {kind : Opener} {head : BlockOpening}
    (h : g.WritesOpening kind ls head) :
    Mirrored g g' (WritesOpening · kind) BlockOpening.bare ls head := by
  intro own hm
  cases h with
  | mk hcall hnames hkind =>
      obtain ⟨_, _, _, rfl, hinside⟩ := hm.exists_between
      obtain ⟨front, back, rfl, hfront, hback⟩ := hinside.exists_append
      obtain ⟨called', hcall', hsame⟩ := mirrored_of_writesCall hb hcall hfront
      refine ⟨_, .mk hcall' (mirrored_names hnames hback) hkind, ?_⟩
      exact congrArg (BlockOpening.mk _ · _ {}) hsame

/-- A closing tag is written wherever its tokens stand, up to its markers. -/
theorem mirrored_closing (hb : g.builder.Placeless) {tail : BlockClosing}
    (h : g.WritesClosing ls tail) : Mirrored g g' WritesClosing BlockClosing.bare ls tail := by
  intro own hm
  cases h with
  | mk h =>
      obtain ⟨_, _, _, rfl, hinside⟩ := hm.exists_between
      obtain ⟨path', h', hsame⟩ := mirrored_of_writesExpr hb h hinside
      exact ⟨_, .mk h', congrArg (fun e => BlockClosing.mk (some e) {}) hsame⟩

/-- The texts of a raw block are written wherever they stand. -/
theorem mirrored_contents {body : List Statement} (h : g.WritesContents ls body) :
    Mirrored g g' WritesContents Body.bare ls body := by
  induction h with
  | nil =>
      intro own hm
      obtain rfl := hm.eq_nil
      exact ⟨_, .nil, rfl⟩
  | cons _ ih =>
      intro own hm
      obtain ⟨_, _, rfl, hmore⟩ := hm.exists_cons
      obtain ⟨more', h', hsame⟩ := ih hmore
      exact ⟨_, .cons h', congrArg (List.cons _) hsame⟩

/-! ## Statements -/

/-- A mustache without places and markers is its call, escaped by its delimiter. -/
theorem bare_mustache {b b' : Builder} (opener : Text) {called called' : Call} (strip : Strip)
    (x x' : Extent) (h : called'.unlocated = called.unlocated) :
    (b'.mustache opener called' strip x').bare = (b.mustache opener called strip x).bare := by
  rw [Builder.mustache, Builder.mustache]
  split <;> rw [Statement.bare, Statement.bare, h]

/-- A mustache between double braces is written wherever its tokens stand. -/
theorem mirrored_plain (hb : g.builder.Placeless) {opener closer : Text} {called : Call}
    (h : g.WritesCall ls called) {x : Extent} :
    Mirrored g g' WritesStatement Statement.bare (tag .plain opener s ls closer s₁)
      (g.builder.mustache opener called (.ofDelimiters opener closer) x) := by
  intro own hm
  obtain ⟨_, _, _, rfl, hinside⟩ := hm.exists_between
  obtain ⟨called', h', hsame⟩ := mirrored_of_writesCall hb h hinside
  exact ⟨_, .plain h', bare_mustache _ _ _ _ hsame⟩

/-- A mustache between triple braces is written wherever its tokens stand. -/
theorem mirrored_unescaped (hb : g.builder.Placeless) {opener closer : Text} {called : Call}
    (h : g.WritesCall ls called) {x : Extent} :
    Mirrored g g' WritesStatement Statement.bare
      (⟨.opener .unescaped opener, s⟩ :: (ls ++ [⟨.unescapedCloser closer, s₁⟩]))
      (g.builder.mustache opener called (.ofDelimiters opener closer) x) := by
  intro own hm
  obtain ⟨_, _, _, rfl, hinside⟩ := hm.exists_between
  obtain ⟨called', h', hsame⟩ := mirrored_of_writesCall hb h hinside
  exact ⟨_, .unescaped h', bare_mustache _ _ _ _ hsame⟩

theorem mirrored_inclusion (hb : g.builder.Placeless) {opener closer : Text} {called : Call}
    (h : g.WritesCall ls called) {x : Extent} :
    Mirrored g g' WritesStatement Statement.bare (tag .inclusion opener s ls closer s₁)
      (g.builder.inclusion called (.ofDelimiters opener closer) x) := by
  intro own hm
  obtain ⟨_, _, _, rfl, hinside⟩ := hm.exists_between
  obtain ⟨called', h', hsame⟩ := mirrored_of_writesCall hb h hinside
  exact ⟨_, .inclusion h', congrArg (fun c => Statement.inclusion ⟨c, [], {}, .nowhere⟩) hsame⟩

/-- A raw block is written wherever its tokens stand. -/
theorem mirrored_rawBlock (hb : g.builder.Placeless) {called : Call} {body : List Statement}
    {name : Text} {block : Statement} (hcall : g.WritesCall ls called)
    (hbody : g.WritesContents ls' body) {x : Extent}
    (hblock : g.builder.rawBlock called body name x = .ok block) :
    Mirrored g g' WritesStatement Statement.bare
      (⟨.rawOpener, s⟩ :: (ls ++ ⟨.rawCloser, s₁⟩ :: (ls' ++ [⟨.rawEnd name, s₂⟩]))) block := by
  intro own hm
  rw [← hm.builder] at hblock
  obtain ⟨_, _, rfl, htag⟩ := hm.exists_cons
  obtain ⟨_, _, rfl, hinside, hmore⟩ := htag.exists_append
  obtain ⟨_, _, _, rfl, hcontents⟩ := hmore.exists_between
  obtain ⟨called', hcall', hsame⟩ := mirrored_of_writesCall hb hcall hinside
  obtain ⟨body', hbody', hsame'⟩ := mirrored_contents hbody hcontents
  obtain ⟨block', hblock', hbare⟩ := Builder.exists_rawBlock_of_bare hblock hsame hsame'
  exact ⟨block', .rawBlock hcall' hbody' hblock', hbare⟩

/-- A block is written wherever its tokens stand, if its sections are. -/
theorem mirrored_block (hb : g.builder.Placeless) {inverted : Bool} {own : List Lexeme}
    {head : BlockOpening} {body : List Statement} {other : Option ElseSection}
    {tail : BlockClosing} {block : Statement} {x : Extent}
    (hhead : g.WritesOpening (if inverted then .inverse else .block) ls head)
    (hbody : Mirrored g g' WritesStatements Body.bare ls' body)
    (hother : Mirrored g g' (WritesSection · (!inverted)) (Option.map ElseSection.bare) ls'' other)
    (htail : g.WritesClosing own tail)
    (hblock : g.builder.block head (Builder.program body none) other (some tail) inverted x =
      .ok block) :
    Mirrored g g' WritesStatement Statement.bare (ls ++ (ls' ++ (ls'' ++ own))) block := by
  intro all hm
  rw [← hm.builder] at hblock
  obtain ⟨_, _, rfl, hopening, hmore⟩ := hm.exists_append
  obtain ⟨_, _, rfl, hmain, hmore'⟩ := hmore.exists_append
  obtain ⟨_, _, rfl, hsection, hclosing⟩ := hmore'.exists_append
  obtain ⟨head', hhead', hsame⟩ := mirrored_opening hb hhead hopening
  obtain ⟨body', hbody', hbare⟩ := hbody hmain
  obtain ⟨other', hother', hsections⟩ := hother hsection
  obtain ⟨tail', htail', hends⟩ := mirrored_closing hb htail hclosing
  have hpaths : ((some tail').bind BlockClosing.path).map Expr.unlocated =
      ((some tail).bind BlockClosing.path).map Expr.unlocated := congrArg BlockClosing.path hends
  obtain ⟨block', hblock', hblocks⟩ := Builder.exists_block_of_bare hblock hsame
    (Builder.bare_program_congr hbare) hsections hpaths
  exact ⟨block', .block hhead' hbody' hother' htail' hblock', hblocks⟩

/-- A partial block is written wherever its tokens stand, if its section is. -/
theorem mirrored_inclusionBlock (hb : g.builder.Placeless) {head : BlockOpening}
    {body : List Statement} {tail : BlockClosing} {block : Statement} {x : Extent}
    (hhead : g.WritesOpening .inclusionBlock ls head)
    (hbody : Mirrored g g' WritesStatements Body.bare ls' body) (htail : g.WritesClosing ls'' tail)
    (hblock : g.builder.inclusionBlock head (Builder.program body none) tail x = .ok block) :
    Mirrored g g' WritesStatement Statement.bare (ls ++ (ls' ++ ls'')) block := by
  intro all hm
  rw [← hm.builder] at hblock
  obtain ⟨_, _, rfl, hopening, hmore⟩ := hm.exists_append
  obtain ⟨_, _, rfl, hmain, hclosing⟩ := hmore.exists_append
  obtain ⟨head', hhead', hsame⟩ := mirrored_opening hb hhead hopening
  obtain ⟨body', hbody', hbare⟩ := hbody hmain
  obtain ⟨tail', htail', hends⟩ := mirrored_closing hb htail hclosing
  obtain ⟨block', hblock', hblocks⟩ := Builder.exists_inclusionBlock_of_bare hblock hsame
    (Builder.bare_program_congr hbare) hends
  exact ⟨block', .inclusionBlock hhead' hbody' htail' hblock', hblocks⟩

/-- A link of an else chain. -/
theorem mirrored_link (hb : g.builder.Placeless) {head : BlockOpening} {body : List Statement}
    {other : Option ElseSection} {block : Statement} {x : Extent}
    (hhead : g.WritesOpening .chain ls head)
    (hbody : Mirrored g g' WritesStatements Body.bare ls' body)
    (hother : Mirrored g g' (WritesSection · true) (Option.map ElseSection.bare) ls'' other)
    (hblock : g.builder.block head (Builder.program body none) other
      (other.map fun s => (⟨none, s.strip⟩ : BlockClosing)) false x = .ok block)
    {loc : Option Location} :
    Mirrored g g' (WritesSection · true) (Option.map ElseSection.bare) (ls ++ (ls' ++ ls''))
      (some ⟨head.strip, Builder.chainedProgram block loc, true⟩) := by
  intro all hm
  rw [← hm.builder] at hblock
  obtain ⟨_, _, rfl, hopening, hmore⟩ := hm.exists_append
  obtain ⟨_, _, rfl, hmain, hsection⟩ := hmore.exists_append
  obtain ⟨head', hhead', hsame⟩ := mirrored_opening hb hhead hopening
  obtain ⟨body', hbody', hbare⟩ := hbody hmain
  obtain ⟨other', hother', hsections⟩ := hother hsection
  have hnone : ∀ other : Option ElseSection,
      ((other.map fun s => (⟨none, s.strip⟩ : BlockClosing)).bind BlockClosing.path).map
        Expr.unlocated = none := by
    rintro (_ | _) <;> rfl
  obtain ⟨block', hblock', hblocks⟩ := Builder.exists_block_of_bare hblock hsame
    (Builder.bare_program_congr hbare) hsections ((hnone other').trans (hnone other).symm)
  refine ⟨_, .link hhead' hbody' hother' hblock', ?_⟩
  exact congrArg (fun s => some (ElseSection.mk {} ⟨[s], none, false, none⟩ true)) hblocks

mutual

/-- **The same tokens write the same statements**, up to places, markers and chains. -/
theorem mirrored_of_writesStatements (hb : g.builder.Placeless) :
    ∀ {ls : List Lexeme} {body : List Statement}, g.WritesStatements ls body →
      Mirrored g g' WritesStatements Body.bare ls body
  | _, _, .nil => by
      intro own hm
      obtain rfl := hm.eq_nil
      exact ⟨_, .nil, rfl⟩
  | _, _, .cons hs h => by
      intro own hm
      obtain ⟨front, back, rfl, hfront, hback⟩ := hm.exists_append
      obtain ⟨s', hs', hsame⟩ := mirrored_of_writesStatement hb hs hfront
      obtain ⟨more', h', hsame'⟩ := mirrored_of_writesStatements hb h hback
      refine ⟨_, .cons hs' h', ?_⟩
      rw [Body.bare, Body.bare, hsame, hsame']

/-- **What a statement is does not depend on where its tokens stand.** -/
theorem mirrored_of_writesStatement (hb : g.builder.Placeless) :
    ∀ {ls : List Lexeme} {node : Statement}, g.WritesStatement ls node →
      Mirrored g g' WritesStatement Statement.bare ls node
  | _, _, .content => by
      intro own hm
      obtain ⟨_, rfl⟩ := hm.exists_singleton
      exact ⟨_, .content, rfl⟩
  | _, _, .comment => by
      intro own hm
      obtain ⟨_, rfl⟩ := hm.exists_singleton
      exact ⟨_, .comment, rfl⟩
  | _, _, .plain h => mirrored_plain hb h
  | _, _, .unescaped h => mirrored_unescaped hb h
  | _, _, .inclusion h => mirrored_inclusion hb h
  | _, _, .rawBlock hcall hbody hblock => mirrored_rawBlock hb hcall hbody hblock
  | _, _, .block hhead hbody hother htail hblock =>
      mirrored_block hb hhead (mirrored_of_writesStatements hb hbody)
        (mirrored_of_writesSection hb hother) htail hblock
  | _, _, .inclusionBlock hhead hbody htail hblock =>
      mirrored_inclusionBlock hb hhead (mirrored_of_writesStatements hb hbody) htail hblock

/-- An else section does not depend on where its tokens stand, with all the links behind
it. -/
theorem mirrored_of_writesSection (hb : g.builder.Placeless) : ∀ {chains : Bool}
    {ls : List Lexeme} {other : Option ElseSection}, g.WritesSection chains ls other →
      Mirrored g g' (WritesSection · chains) (Option.map ElseSection.bare) ls other
  | _, _, _, .none => by
      intro own hm
      obtain rfl := hm.eq_nil
      exact ⟨_, .none, rfl⟩
  | _, _, _, .plain h => by
      intro own hm
      obtain ⟨_, _, rfl, hmore⟩ := hm.exists_cons
      obtain ⟨body', h', hsame⟩ := mirrored_of_writesStatements hb h hmore
      refine ⟨_, .plain h', ?_⟩
      exact congrArg (fun l => some (ElseSection.mk {} ⟨l, none, false, none⟩ false)) hsame
  | _, _, _, .link hhead hbody hother hblock =>
      mirrored_link hb hhead (mirrored_of_writesStatements hb hbody)
        (mirrored_of_writesSection hb hother) hblock

end

end Grammar
end Stache
