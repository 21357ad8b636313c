import Stache.Proofs.Grammar.Calls
import Stache.Proofs.Token.Spelling

/-!
# The grammar is complete

The alternatives of tags, statements and else sections, and from all of them by
induction on derivations that every phrase is read in full
(`complete_of_derives`).  With what is known of accepted templates it follows
that the grammar accepts its context-free language (`parse_contextFree`).

An else chain that does not go on with a block needs a link whose delimiter has a
`*` in it (`Starred`).  The scanner returns no such delimiter.
-/

namespace Stache
namespace Grammar

variable {g : Grammar} {c : Cursor} {ts ts' ts'' rest : List Token}

/-! ## Tags -/

theorem complete_identsNil : Complete g .idents [] := by
  intro c rest hc
  rw [Grammar.idents]
  split
  · next hnext =>
      rw [Cursor.tokens_of_next? hnext] at hc
      cases hc
  · exact hc

/-- A name in front of names is one of them. -/
theorem complete_identsCons {name : Text} (h : Complete g .idents ts) :
    Complete g .idents (.ident name :: ts) := by
  intro c rest hc
  obtain ⟨s, c₁, h₁, hnext, hc₁⟩ := Cursor.exists_next? hc
  rw [Grammar.idents]
  simp only [hnext]
  exact h hc₁

theorem complete_namesNone : Complete g .names [] := by
  intro c closer rest hc
  rw [blockParams]
  split
  · next hnext =>
      rw [Cursor.tokens_of_next? hnext] at hc
      cases hc
  · exact .ok hc

/-- Block parameters are read up to the bar that ends them. -/
theorem complete_namesSome {name : Text} (h : Complete g .idents ts) :
    Complete g .names (.paramsOpen :: .ident name :: (ts ++ [.paramsClose])) := by
  intro c closer rest hc
  rw [List.cons_append, List.cons_append, List.append_assoc] at hc
  obtain ⟨s, c₁, h₁, hnext, hc₁⟩ := Cursor.exists_next? hc
  rw [blockParams]
  simp only [hnext]
  refine .commit ?_
  refine (meets_ident hc₁).bind id ?_
  rintro ⟨_, c₂, _⟩ - hc₂
  refine (meets_isToken (h hc₂)).bind id ?_
  rintro ⟨_, c₃, _⟩ - hc₃
  exact .ok hc₃

/-- An opening tag is read in three parts: its call, its block parameters and its end. -/
theorem complete_opening {kind : Opener} {opener closer : Text} (hcall : Complete g .call ts)
    (hnames : Complete g .names ts') (hdnames : Derives .names ts') :
    Complete g (.opening kind) (.opener kind opener :: (ts ++ (ts' ++ [.closer closer]))) := by
  refine ⟨opener, _, rfl, fun c rest hc => ?_⟩
  rw [List.append_assoc, List.append_assoc] at hc
  have hends : Fronts Token.endsCall (ts' ++ ([.closer closer] ++ rest)) := by
    cases hdnames with
    | namesNone | namesSome _ => exact .cons rfl
  refine .commit ?_
  refine (hcall hc hends).bind id fun ⟨_, c₁, _⟩ _ hc₁ => ?_
  refine (hnames hc₁).bind id fun ⟨_, c₂, _⟩ _ hc₂ => ?_
  refine (meets_closer hc₂).bind id fun ⟨_, c₃, _⟩ _ hc₃ => ?_
  exact .ok hc₃

/-- A closing tag with a name is read. -/
theorem complete_closing {opener closer : Text} (h : Complete g .expr ts) :
    Complete g .closing (.opener .close opener :: (ts ++ [.closer closer])) := by
  intro c rest hc
  rw [List.cons_append, List.append_assoc] at hc
  refine (meets_blockClose hc).bind id fun ⟨_, c₁, _⟩ _ hc₁ => ?_
  refine .commit ?_
  refine (h hc₁ (.cons rfl)).bind id fun ⟨_, c₂, _⟩ _ hc₂ => ?_
  refine (meets_closer hc₂).bind id fun ⟨_, c₃, _⟩ _ hc₃ => ?_
  exact .ok hc₃

theorem complete_contentsNil : Complete g .contents [] := by
  intro c name rest hc
  rw [Grammar.contents]
  split
  · next hnext =>
      rw [Cursor.tokens_of_next? hnext] at hc
      cases hc
  · exact hc

/-- A text in front of the texts of a raw block is one of them. -/
theorem complete_contentsCons {text : Text} (h : Complete g .contents ts) :
    Complete g .contents (.content text :: ts) := by
  intro c name rest hc
  obtain ⟨s, c₁, h₁, hnext, hc₁⟩ := Cursor.exists_next? hc
  rw [Grammar.contents]
  simp only [hnext]
  exact h hc₁

/-! ## Leaves -/

theorem complete_content {text : Text} : Complete g .statement [.content text] := by
  intro c rest hc
  obtain ⟨s, c₁, h₁, hnext, hc₁⟩ := Cursor.exists_next? hc
  rw [Grammar.statement]
  simp only [hnext]
  exact .ok hc₁

theorem complete_comment {text : Text} : Complete g .statement [.comment text] := by
  intro c rest hc
  obtain ⟨s, c₁, h₁, hnext, hc₁⟩ := Cursor.exists_next? hc
  rw [Grammar.statement]
  simp only [hnext]
  exact .ok hc₁

/-- Behind its delimiter a mustache is read up to the double braces. -/
theorem meets_mustache {start : Nat} {opener closer : Text} (h : Complete g .call ts)
    (hc : c.tokens = ts ++ .closer closer :: rest) :
    Meets False rest (mustache g start false opener c) := by
  refine .commit ?_
  refine (h hc (.cons rfl)).bind id fun ⟨_, c₁, _⟩ _ hc₁ => ?_
  refine (meets_closer hc₁).bind id fun ⟨_, c₂, _⟩ _ hc₂ => ?_
  exact .ok hc₂

/-- Behind its delimiter a mustache is read up to the triple braces. -/
theorem meets_mustache_unescaped {start : Nat} {opener closer : Text} (h : Complete g .call ts)
    (hc : c.tokens = ts ++ .unescapedCloser closer :: rest) :
    Meets False rest (mustache g start true opener c) := by
  refine .commit ?_
  refine (h hc (.cons rfl)).bind id fun ⟨_, c₁, _⟩ _ hc₁ => ?_
  refine (meets_unescapedCloser hc₁).bind id fun ⟨_, c₂, _⟩ _ hc₂ => ?_
  exact .ok hc₂

/-- Behind its delimiter a partial is read up to the double braces. -/
theorem meets_inclusion {start : Nat} {opener closer : Text} (h : Complete g .call ts)
    (hc : c.tokens = ts ++ .closer closer :: rest) :
    Meets False rest (Grammar.inclusion g start opener c) := by
  refine .commit ?_
  refine (h hc (.cons rfl)).bind id fun ⟨_, c₁, _⟩ _ hc₁ => ?_
  refine (meets_closer hc₁).bind id fun ⟨_, c₂, _⟩ _ hc₂ => ?_
  exact .ok hc₂

/-- A mustache between double braces is read. -/
theorem complete_plain {opener closer : Text} (h : Complete g .call ts) :
    Complete g .statement (.opener .plain opener :: (ts ++ [.closer closer])) := by
  intro c rest hc
  rw [List.cons_append, List.append_assoc] at hc
  obtain ⟨s, c₁, h₁, hnext, hc₁⟩ := Cursor.exists_next? hc
  rw [Grammar.statement]
  simp only [hnext]
  exact (meets_mustache h hc₁).bind False.elim fun ⟨_, c₂, _⟩ _ hc₂ => .ok hc₂

/-- A mustache between triple braces is read. -/
theorem complete_unescaped {opener closer : Text} (h : Complete g .call ts) :
    Complete g .statement (.opener .unescaped opener :: (ts ++ [.unescapedCloser closer])) := by
  intro c rest hc
  rw [List.cons_append, List.append_assoc] at hc
  obtain ⟨s, c₁, h₁, hnext, hc₁⟩ := Cursor.exists_next? hc
  rw [Grammar.statement]
  simp only [hnext]
  exact (meets_mustache_unescaped h hc₁).bind False.elim fun ⟨_, c₂, _⟩ _ hc₂ => .ok hc₂

/-- A partial is read. -/
theorem complete_inclusion {opener closer : Text} (h : Complete g .call ts) :
    Complete g .statement (.opener .inclusion opener :: (ts ++ [.closer closer])) := by
  intro c rest hc
  rw [List.cons_append, List.append_assoc] at hc
  obtain ⟨s, c₁, h₁, hnext, hc₁⟩ := Cursor.exists_next? hc
  rw [Grammar.statement]
  simp only [hnext]
  exact (meets_inclusion h hc₁).bind False.elim fun ⟨_, c₂, _⟩ _ hc₂ => .ok hc₂

/-! ## What the builder refuses -/

/-- A closing tag that does not fit breaks no chain. -/
theorem code_of_checkClose {opened : Expr} {closed : Option Text} {closedAt : Option Location}
    {e : BuildError} (h : Builder.checkClose opened closed closedAt = .error e) :
    e.code ≠ .brokenChain := by
  unfold Builder.checkClose at h
  split at h
  · dsimp only at h
    split at h
    · cases h
    · cases h
      nofun
  · cases h
    nofun

/-- A computation in two steps that fails fails in one of them. -/
theorem error_of_bind_eq_error {ε α β : Type} {x : Except ε α} {f : α → Except ε β} {e : ε}
    (h : x >>= f = .error e) : x = .error e ∨ ∃ a, f a = .error e := by
  cases x with
  | ok a => exact .inr ⟨a, h⟩
  | error e' => exact .inl (congrArg Except.error (Except.error.inj h))

/-- A raw block breaks no chain. -/
theorem code_of_rawBlock {b : Builder} {called : Call} {body : List Statement} {name : Text}
    {x : Extent} {e : BuildError} (h : b.rawBlock called body name x = .error e) :
    e.code ≠ .brokenChain := by
  rcases error_of_bind_eq_error h with h | ⟨u, h⟩
  · exact code_of_checkClose h
  · cases h

/-- A partial block breaks no chain. -/
theorem code_of_inclusionBlock {b : Builder} {head : BlockOpening} {program : Program}
    {tail : BlockClosing} {x : Extent} {e : BuildError}
    (h : b.inclusionBlock head program tail x = .error e) : e.code ≠ .brokenChain := by
  rcases error_of_bind_eq_error h with h | ⟨u, h⟩
  · exact code_of_checkClose h
  · cases h

/-- An else chain is refused only if its first link is no block. -/
theorem exists_of_inverseProgram {decorator : Bool} {closing : Strip} {loc : Location}
    {other : Option ElseSection} {e : BuildError}
    (h : Builder.inverseProgram decorator closing loc other = .error e)
    (hcode : e.code = .brokenChain) :
    ∃ s, other = some s ∧ s.chained = true ∧ Builder.closeChain s.program closing = none := by
  unfold Builder.inverseProgram at h
  split at h
  · cases h
  · next s =>
      split at h
      · cases h
        cases hcode
      · split at h
        · next hchained =>
            split at h
            · cases h
            · next hnone => exact ⟨s, rfl, hchained, hnone⟩
        · cases h

/-- A block is refused for a broken chain only if its else section is a link that cannot
be closed. -/
theorem exists_of_block_eq_error {b : Builder} {head : BlockOpening} {program : Program}
    {other : Option ElseSection} {tail : Option BlockClosing} {inverted : Bool} {x : Extent}
    {e : BuildError} (h : b.block head program other tail inverted x = .error e)
    (hcode : e.code = .brokenChain) :
    ∃ s closing, other = some s ∧ s.chained = true ∧
      Builder.closeChain s.program closing = none := by
  have hinverse : ∃ decorator closing loc,
      Builder.inverseProgram decorator closing loc other = .error e := by
    rw [Builder.block] at h
    dsimp only at h
    split at h
    · rcases error_of_bind_eq_error h with h | ⟨u, h⟩
      · exact absurd hcode (code_of_checkClose h)
      · rcases error_of_bind_eq_error h with h | ⟨inverse, h⟩
        · exact ⟨_, _, _, h⟩
        · cases h
    · rcases error_of_bind_eq_error h with h | ⟨inverse, h⟩
      · exact ⟨_, _, _, h⟩
      · cases h
  obtain ⟨decorator, closing, loc, hinverse⟩ := hinverse
  obtain ⟨s, hs, hchained, hnone⟩ := exists_of_inverseProgram hinverse hcode
  exact ⟨s, closing, hs, hchained, hnone⟩

/-- A link that is no block has a `*` in its delimiter. -/
theorem contains_of_closeChain {b : Builder} {head : BlockOpening} {program : Program}
    {other : Option ElseSection} {tail : Option BlockClosing} {inverted : Bool} {x : Extent}
    {block : Statement} {loc : Option Location} {closing : Strip}
    (h : b.block head program other tail inverted x = .ok block)
    (hnone : Builder.closeChain (Builder.chainedProgram block loc) closing = none) :
    head.opener.contains '*' = true := by
  rw [Builder.block] at h
  dsimp only at h
  cases hstar : List.contains head.opener '*' with
  | true => rfl
  | false =>
      rw [hstar] at h
      split at h
      · obtain ⟨-, -, h⟩ := exists_of_bind_eq_ok h
        obtain ⟨inverse, -, h⟩ := exists_of_bind_eq_ok h
        cases h
        cases hnone
      · obtain ⟨inverse, -, h⟩ := exists_of_bind_eq_ok h
        cases h
        cases hnone

/-- A link that cannot be closed has a star in its delimiter. -/
theorem starred_of_writesSection {chains : Bool} {ls : List Lexeme} {s : ElseSection}
    {closing : Strip} (h : g.WritesSection chains ls (some s)) (hchained : s.chained = true)
    (hnone : Builder.closeChain s.program closing = none) : Starred (tokensOf ls) := by
  cases h with
  | plain _ => cases hchained
  | link hhead hbody hother hblock =>
      have hstar := contains_of_closeChain hblock hnone
      cases hhead with
      | mk _ _ _ => exact ⟨_, List.mem_cons_self, List.contains_iff_mem.mp hstar⟩

/-! ## Blocks -/

theorem Starred.left (h : Starred ts) : Starred (ts ++ ts') := h.mono (List.subset_append_left _ _)

theorem Starred.right (h : Starred ts') : Starred (ts ++ ts') :=
  h.mono (List.subset_append_right _ _)

theorem Starred.cons {t : Token} (h : Starred ts) : Starred (t :: ts) :=
  h.mono (List.subset_cons_self _ _)

/-- What an else section was read from derives it, so a refused chain has a `*`
in its tokens. -/
theorem starred_of_block {chains : Bool} {p : Parsed (Option ElseSection) (c.rest.length + 1)}
    (hp : section? g chains c = .ok p) (hc : c.tokens = ts ++ rest) (hc' : p.cursor.tokens = rest)
    {b : Builder} {head : BlockOpening} {program : Program} {tail : Option BlockClosing}
    {inverted : Bool} {x : Extent} {e : BuildError}
    (h : b.block head program p.value tail inverted x = .error e) (hcode : e.code = .brokenChain) :
    Starred ts := by
  obtain ⟨s, closing, hs, hchained, hnone⟩ := exists_of_block_eq_error h hcode
  obtain ⟨ls, hreads, hls⟩ := sound_section? c hp
  have hts : tokensOf ls = ts := by
    have htokens : tokensOf ls ++ rest = ts ++ rest := by
      rw [← hc, Cursor.tokens, hreads.rest_eq, tokensOf_append, ← hc']
      rfl
    exact List.append_cancel_right htokens
  rw [hs] at hls
  exact hts ▸ starred_of_writesSection hls hchained hnone

/-- A raw block is read, or its names do not match. -/
theorem complete_rawBlock {name : Text} (hcall : Complete g .call ts)
    (hbody : Complete g .contents ts') :
    Complete g .statement (.rawOpener :: (ts ++ .rawCloser :: (ts' ++ [.rawEnd name]))) := by
  intro c rest hc
  rw [List.cons_append, List.append_assoc, List.cons_append, List.append_assoc] at hc
  obtain ⟨s, c₁, h₁, hnext, hc₁⟩ := Cursor.exists_next? hc
  have hblock : Meets False rest (Grammar.rawBlock g s.start c₁) := by
    refine .commit ?_
    refine (hcall hc₁ (.cons rfl)).bind id fun ⟨_, c₂, _⟩ _ hc₂ => ?_
    refine (meets_isToken hc₂).bind id fun ⟨_, c₃, _⟩ _ hc₃ => ?_
    refine (meets_rawEnd (hbody hc₃)).bind id fun ⟨_, c₄, _⟩ _ hc₄ => ?_
    refine Meets.lift (fun e he hcode => code_of_rawBlock he hcode) fun block => ?_
    exact .ok hc₄
  rw [Grammar.statement]
  simp only [hnext]
  exact hblock.bind False.elim fun ⟨_, c₂, _⟩ _ hc₂ => .ok hc₂

/-- A block is read, or the builder refuses it. -/
theorem complete_block (inverted : Bool) {us : List Token}
    (hhead : Complete g (.opening (if inverted then .inverse else .block)) ts)
    (hbody : Complete g .statements ts') (hother : Complete g (.elseSection (!inverted)) ts'')
    (hdother : Derives (.elseSection (!inverted)) ts'') (htail : Complete g .closing us)
    (hdtail : Derives .closing us) :
    Complete g .statement (ts ++ (ts' ++ (ts'' ++ us))) := by
  intro c rest hc
  rw [List.append_assoc, List.append_assoc, List.append_assoc] at hc
  obtain ⟨opener, ts₁, rfl, hhead⟩ := hhead
  obtain ⟨closer, ts₂, rfl⟩ := exists_of_closing hdtail
  obtain ⟨s, c₁, h₁, hnext, hc₁⟩ := Cursor.exists_next? hc
  have hends : Fronts Token.endsBody (ts'' ++ (.opener .close closer :: ts₂ ++ rest)) :=
    fronts_section hdother (.cons rfl)
  rw [Grammar.statement]
  cases inverted with
  | false | true =>
      simp only [hnext]
      refine (hhead hc₁).bind False.elim ?_
      rintro ⟨head, c₂, _⟩ - hc₂
      refine .commit ?_
      refine (hbody hc₂ hends).bind (fun h => h.left.right) ?_
      rintro ⟨_, c₃, _⟩ - hc₃
      refine (hother hc₃).bind (fun h => h.left.right.right) ?_
      rintro ⟨other, c₄, _⟩ hp hc₄
      refine (htail hc₄).bind False.elim ?_
      rintro ⟨_, c₅, _⟩ - hc₅
      refine Meets.lift (fun e he hcode => ?_) fun block => .ok hc₅
      exact (starred_of_block hp hc₃ hc₄ he hcode).left.right.right

/-- A partial block is read, or its names do not match. -/
theorem complete_inclusionBlock {opener closer : Text} (hcall : Complete g .call ts)
    (hbody : Complete g .statements ts') (htail : Complete g .closing ts'')
    (hdtail : Derives .closing ts'') :
    Complete g .statement
      (.opener .inclusionBlock opener :: (ts ++ .closer closer :: (ts' ++ ts''))) := by
  intro c rest hc
  rw [List.cons_append, List.append_assoc, List.cons_append, List.append_assoc] at hc
  obtain ⟨s, c₁, h₁, hnext, hc₁⟩ := Cursor.exists_next? hc
  have hhead : Meets False (ts' ++ (ts'' ++ rest)) (Grammar.opening g false opener c₁) := by
    refine .commit ?_
    refine (hcall hc₁ (.cons rfl)).bind id fun ⟨_, c₂, _⟩ _ hc₂ => ?_
    refine (meets_closer hc₂).bind id fun ⟨_, c₃, _⟩ _ hc₃ => ?_
    exact .ok hc₃
  rw [Grammar.statement]
  simp only [hnext]
  refine hhead.bind False.elim fun ⟨_, c₂, _⟩ _ hc₂ => ?_
  refine .commit ?_
  refine (hbody hc₂ (fronts_closing hdtail)).bind (fun h => h.left.cons.right.cons)
    fun ⟨_, c₃, _⟩ _ hc₃ => ?_
  refine (htail hc₃).bind False.elim fun ⟨_, c₄, _⟩ _ hc₄ => ?_
  refine Meets.lift (fun e he hcode => absurd hcode (code_of_inclusionBlock he)) fun block => ?_
  exact .ok hc₄

/-! ## Bodies and else sections -/

theorem complete_statementsNil : Complete g .statements [] := by
  intro c rest hc hrest
  rw [Grammar.statements]
  split
  · next hstart =>
      rw [Cursor.peek?_eq, hc, List.nil_append] at hstart
      cases rest with
      | nil => cases hstart
      | cons t rest =>
          have hend := hrest.head
          rw [Token.endsBody, show t.startsStatement = true from hstart] at hend
          cases hend
  · exact .ok hc

/-- A statement in front of statements is one of them. -/
theorem complete_statementsCons (hs : Complete g .statement ts) (hds : Derives .statement ts)
    (h : Complete g .statements ts') : Complete g .statements (ts ++ ts') := by
  intro c rest hc hrest
  rw [List.append_assoc] at hc
  have hstart : c.peek?.any Token.startsStatement = true := by
    obtain ⟨t, ts₁, rfl, ht⟩ := exists_of_statement hds
    rw [Cursor.peek?_eq, hc]
    exact ht
  rw [Grammar.statements, if_pos hstart]
  refine (hs hc).bind Starred.left fun ⟨_, c₁, _⟩ _ hc₁ => ?_
  refine (h hc₁ hrest).bind Starred.right fun ⟨_, c₂, _⟩ _ hc₂ => ?_
  exact .ok hc₂

/-- In front of a closing tag there is no else section. -/
theorem complete_sectionNone {chains : Bool} : Complete g (.elseSection chains) [] := by
  intro c opener rest hc
  rw [section?]
  split
  · next hnext =>
      rw [Cursor.tokens_of_next? hnext] at hc
      cases hc
  · next hnext =>
      rw [Cursor.tokens_of_next? hnext] at hc
      cases hc
  · exact .ok hc

/-- An else tag without a head starts the last section. -/
theorem complete_sectionPlain {chains : Bool} {text : Text} (h : Complete g .statements ts) :
    Complete g (.elseSection chains) (.elseTag text :: ts) := by
  intro c opener rest hc
  obtain ⟨s, c₁, h₁, hnext, hc₁⟩ := Cursor.exists_next? hc
  rw [section?]
  simp only [hnext]
  refine (h hc₁ (.cons rfl)).bind Starred.cons fun ⟨_, c₂, _⟩ _ hc₂ => ?_
  exact .ok hc₂

/-- An else tag with a head starts a link of the chain, which the builder may refuse. -/
theorem complete_sectionLink (hhead : Complete g (.opening .chain) ts)
    (hbody : Complete g .statements ts') (hother : Complete g (.elseSection true) ts'')
    (hdother : Derives (.elseSection true) ts'') :
    Complete g (.elseSection true) (ts ++ (ts' ++ ts'')) := by
  intro c closer rest hc
  rw [List.append_assoc, List.append_assoc] at hc
  obtain ⟨opener, ts₁, rfl, hhead⟩ := hhead
  obtain ⟨s, c₁, h₁, hnext, hc₁⟩ := Cursor.exists_next? hc
  have hends : Fronts Token.endsBody (ts'' ++ (.opener .close closer :: rest)) :=
    fronts_section hdother (.cons rfl)
  rw [section?]
  simp only [hnext]
  refine (hhead hc₁).bind False.elim fun ⟨_, c₂, _⟩ _ hc₂ => ?_
  refine .commit ?_
  refine (hbody hc₂ hends).bind (fun h => h.left.right) fun ⟨_, c₃, _⟩ _ hc₃ => ?_
  refine (hother hc₃).bind (fun h => h.right.right) fun ⟨other, c₄, _⟩ hp hc₄ => ?_
  refine Meets.lift (fun e he hcode => ?_) fun block => .ok hc₄
  exact (starred_of_block hp hc₃ hc₄ he hcode).right.right

/-! ## All phrases -/

/-- Every phrase is read in full. -/
theorem complete_of_derives : ∀ {phrase : Phrase} {ts : List Token}, Derives phrase ts →
    Complete g phrase ts
  | _, _, .tailNil => complete_tailNil
  | _, _, .tailCons h => complete_tailCons (complete_of_derives h)
  | _, _, .segments h => complete_segments (complete_of_derives h)
  | _, _, .path (.segments h) => complete_path (complete_of_derives h)
  | _, _, .data h => complete_data (complete_of_derives h)
  | _, _, .literal ht => complete_literal ht
  | _, _, .hash h hne => complete_hash (complete_of_derives h) h hne
  | _, _, .sub h => complete_sub (complete_of_derives h) h
  | _, _, .subPath h hmore =>
      complete_subPath (complete_of_derives h) h (complete_of_derives hmore)
  | _, _, .array h => complete_array (complete_of_derives h)
  | _, _, .exprsNil => complete_exprsNil
  | _, _, .exprsCons he h =>
      complete_exprsCons (complete_of_derives he) he (complete_of_derives h) h
  | _, _, .pairsNil => complete_pairsNil
  | _, _, .pairsCons he h => complete_pairsCons (complete_of_derives he) (complete_of_derives h) h
  | _, _, .call hhead hparams hpairs =>
      complete_call (complete_of_derives hhead) (complete_of_derives hparams) hparams
        (complete_of_derives hpairs) hpairs
  | _, _, .identsNil => complete_identsNil
  | _, _, .identsCons h => complete_identsCons (complete_of_derives h)
  | _, _, .namesNone => complete_namesNone
  | _, _, .namesSome h => complete_namesSome (complete_of_derives h)
  | _, _, .contentsNil => complete_contentsNil
  | _, _, .contentsCons h => complete_contentsCons (complete_of_derives h)
  | _, _, .opening hcall hnames =>
      complete_opening (complete_of_derives hcall) (complete_of_derives hnames) hnames
  | _, _, .closing h => complete_closing (complete_of_derives h)
  | _, _, .content => complete_content
  | _, _, .comment => complete_comment
  | _, _, .plain h => complete_plain (complete_of_derives h)
  | _, _, .unescaped h => complete_unescaped (complete_of_derives h)
  | _, _, .inclusion h => complete_inclusion (complete_of_derives h)
  | _, _, .inclusionBlock hcall hbody htail =>
      complete_inclusionBlock (complete_of_derives hcall) (complete_of_derives hbody)
        (complete_of_derives htail) htail
  | _, _, .rawBlock hcall hbody =>
      complete_rawBlock (complete_of_derives hcall) (complete_of_derives hbody)
  | _, _, .block hhead hbody hother htail =>
      complete_block false (complete_of_derives hhead) (complete_of_derives hbody)
        (complete_of_derives hother) hother (complete_of_derives htail) htail
  | _, _, .inverse hhead hbody hother htail =>
      complete_block true (complete_of_derives hhead) (complete_of_derives hbody)
        (complete_of_derives hother) hother (complete_of_derives htail) htail
  | _, _, .statementsNil => complete_statementsNil
  | _, _, .statementsCons hs h =>
      complete_statementsCons (complete_of_derives hs) hs (complete_of_derives h)
  | _, _, .sectionNone => complete_sectionNone
  | _, _, .sectionPlain h => complete_sectionPlain (complete_of_derives h)
  | _, _, .sectionLink hhead hbody hother =>
      complete_sectionLink (complete_of_derives hhead) (complete_of_derives hbody)
        (complete_of_derives hother) hother

/-- The tokens of a template are not starred. -/
theorem not_starred_tokenize (square : Bool) (text : Text) :
    ¬Starred (tokensOf (tokenize square text).lexemes) := by
  rintro ⟨opener, hmem, hstar⟩
  obtain ⟨l, hl, htoken⟩ := List.mem_map.mp hmem
  exact not_mem_of_tokenize hl htoken hstar

/-- The grammar accepts what derives `statements`, up to what the builder refuses. -/
theorem program_of_derives {ls : List Lexeme} (h : Derives .statements (tokensOf ls)) :
    (∃ p, g.program ls = .ok p) ∨ ∃ e, g.program ls = .error (.rejected e) ∧
      (e.code = .brokenChain → Starred (tokensOf ls)) := by
  have hc : Cursor.tokens ⟨⟨0, 0⟩, ls⟩ = tokensOf ls ++ [] := (List.append_nil _).symm
  rcases complete_of_derives h hc .nil with ⟨⟨body, c, hlt⟩, hp, hrest⟩ | ⟨e, he, hcode⟩
  · have hempty : c.rest = [] := List.map_eq_nil_iff.mp hrest
    refine .inl ⟨Builder.program body none, ?_⟩
    rw [program, hp]
    exact if_pos (by rw [hempty]; rfl)
  · refine .inr ⟨e, ?_, hcode⟩
    rw [program, he]
    rfl

/-- The report of a refusal has the code of the refusal. -/
theorem code_diagnostic (e : BuildError) : e.diagnostic.code = some e.code := by
  cases e with
  | mismatchedClose _ _ _ closedAt | openNotPath _ closedAt => cases closedAt <;> rfl
  | invalidPath | inverseOnDecorator | brokenChain => rfl

/-- **The grammar accepts its context-free language.**  What it accepts derives
`statements`.  Conversely a list of tokens that derives `statements` is accepted,
or the builder refuses it: for a wrong path, a wrong closing tag, a block that is
not opened with a path, or an else section on a decorator block.  That an else
chain does not go on with a block is reported only for a link with a `*` in its
delimiter, and the tokens of a template have none. -/
theorem parse_contextFree (g : Grammar) (ls : List Lexeme) :
    (∀ p, g.parse ls = .ok p → Derives .statements (tokensOf ls)) ∧
      (Derives .statements (tokensOf ls) →
        (∃ p, g.parse ls = .ok p) ∨
          ∃ d, g.parse ls = .error d ∧
            (d.code ∈ [some .invalidPath, some .mismatchedClose, some .openNotPath,
                some .inverseOnDecorator] ∨
              d.code = some .brokenChain ∧ Starred (tokensOf ls))) ∧
      ∀ square text, ¬Starred (tokensOf (tokenize square text).lexemes) := by
  refine ⟨fun p hp => derives_of_program (program_of_parse hp), fun h => ?_,
    not_starred_tokenize⟩
  · rw [parse]
    rcases program_of_derives h with ⟨p, hp⟩ | ⟨e, he, hstar⟩
    · rw [hp]
      exact .inl ⟨p, rfl⟩
    · rw [he]
      refine .inr ⟨e.diagnostic, rfl, ?_⟩
      rw [code_diagnostic]
      cases e with
      | brokenChain loc => exact .inr ⟨rfl, hstar rfl⟩
      | invalidPath | mismatchedClose | openNotPath | inverseOnDecorator =>
          exact .inl (by simp [BuildError.code])

end Grammar
end Stache
