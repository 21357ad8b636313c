import Stache.Proofs.Grammar.Resumes

/-!
# Templates that go on

What the grammar makes of the first tokens of a template follows what it makes of all of
them: tags, statements, else sections and the program.

Between statements the first tokens may end with a piece of one.  Statements read it, and
then no token is left.  So what comes after statements, a section or a closing tag, starts
with a whole token again.  Only the delimiter of a link may be left, where one may come
(`Linked`).  A section that starts with it asks for more.
-/

namespace Stache
namespace Grammar

variable {K : Cut} {ends : Cursor → Prop} {links calls : List Bool} {m : Stage} {g g' : Grammar}
  {c c' : Cursor}

/-! ## Tags -/

/-- Behind the end of a tag both readings are between tags. -/
theorem follows_closer {expected : Expected} (h : Goes K m c c') (hm : m.site ≠ .text) :
    Follows K Never ⟨m.links, [], .text⟩ (c.expect expected Token.closer?)
      (c'.expect expected Token.closer?) := by
  refine follows_expect h hm (fun ht => ?_) fun {t} ht => ?_
  · rw [Token.eq_of_closer? ht]
    rfl
  · cases t <;> first | rfl | cases ht

theorem follows_unescapedCloser {expected : Expected} (h : Goes K m c c') (hm : m.site ≠ .text) :
    Follows K Never ⟨m.links, [], .text⟩ (c.expect expected Token.unescapedCloser?)
      (c'.expect expected Token.unescapedCloser?) := by
  refine follows_expect h hm (fun ht => ?_) fun {t} ht => ?_
  · rw [Token.eq_of_unescapedCloser? ht]
    rfl
  · cases t <;> first | rfl | cases ht

/-- Behind the closer of a raw block both readings are between tags. -/
theorem follows_rawEnd {expected : Expected} (h : Goes K ⟨links, [], .raw⟩ c c') :
    Follows K Never ⟨links, [], .text⟩ (c.expect expected Token.rawEnd?)
      (c'.expect expected Token.rawEnd?) := by
  refine follows_expect h nofun (fun ht => ?_) fun {t} ht => ?_
  · rw [Token.eq_of_rawEnd? ht]
    rfl
  · cases t <;> first | rfl | cases ht

/-- Behind the start of a closing tag both readings are in a tag without parameters. -/
theorem follows_blockClose {expected : Expected} {x : Bool}
    (h : Goes K ⟨x :: links, calls, .tag⟩ c c') :
    Follows K Never ⟨links, [true], .tag⟩ (c.expect expected Token.blockClose?)
      (c'.expect expected Token.blockClose?) := by
  refine follows_expect h (Site.ne_text rfl) (fun ht => ?_) fun {t} ht => ?_
  · rw [Token.eq_of_blockClose? ht]
    rfl
  · cases t <;> first | rfl | cases ht

theorem rest_idents (h : c.rest = []) : (idents c).cursor.rest = [] := by
  rw [idents, Cursor.next?_eq_none h]
  exact h

/-- Without `as |` there are no block parameters. -/
theorem blockParams_of_ne {t : Token} {s : Span} {c₁ : Cursor} {h₁ : c₁.rest.length < c.rest.length}
    (hnext : c.next? = some ⟨⟨t, s⟩, c₁, h₁⟩) (ht : t ≠ .paramsOpen) :
    blockParams c = .ok (.stay c none) := by
  rw [blockParams]
  simp only [hnext]
  cases t <;> first | rfl | exact absurd rfl ht

/-- The names of block parameters are the same, or the tokens end among them. -/
theorem follows_idents {c c' : Cursor} (h : Goes K ⟨links, calls, .names⟩ c c') :
    (idents c).cursor.rest = [] ∨
      (idents c').value = (idents c).value ∧
        Goes K ⟨links, calls, .names⟩ (idents c).cursor (idents c').cursor := by
  cases h.next (Site.ne_text rfl) with
  | stop hnone => exact .inl (rest_idents hnone)
  | @token t s c₁ c₁' h₁ h₁' hnext hnext' _ hgoes =>
      rw [idents, idents]
      simp only [hnext, hnext']
      cases t with
      | ident name =>
          rcases follows_idents hgoes with hrest | ⟨hvalue, hgoes⟩
          · exact .inl hrest
          · refine .inr ⟨?_, hgoes⟩
            show _ :: _ = _ :: _
            rw [hvalue]
      | _ => exact .inr ⟨rfl, h⟩
  | word hnext _ _ _ _ hoff =>
      obtain ⟨hnil, name, rfl⟩ := hoff.of_wantsName rfl
      rw [idents]
      simp only [hnext]
      exact .inl (rest_idents (List.map_eq_nil_iff.mp hnil))
termination_by c.rest.length

/-- At the end there are no block parameters yet. -/
theorem stops_blockParams (h : c.rest = []) : Stops K Spent (blockParams c) := by
  rw [blockParams, Cursor.next?_eq_none h]
  exact h

/-- Block parameters stand behind the arguments, so both readings are in the tag behind
them. -/
theorem follows_blockParams (h : Goes K ⟨links, calls, .pairs⟩ c c') :
    Follows K Spent ⟨links, calls, .tag⟩ (blockParams c) (blockParams c') := by
  have hstay : Goes K ⟨links, calls, .tag⟩ c c' := h.weaken (.of_site .pairs)
  have hne {t : Token} (ht : isWord t = true) : t ≠ .paramsOpen := by
    rintro rfl
    cases ht
  cases h.next (Site.ne_text rfl) with
  | stop hnone => exact .stops (stops_blockParams hnone)
  | @token t s c₁ c₁' h₁ h₁' hnext hnext' _ hgoes =>
      by_cases ht : t = .paramsOpen
      · subst ht
        rw [blockParams, blockParams]
        simp only [hnext, hnext']
        refine .commit hgoes (fun hnone => (stops_expect hnone).bind) fun _ => ?_
        refine .bind_ends (follows_ident hgoes rfl fun _ => .refl ⟨links, calls, .names⟩)
          (fun p _ hp => .stops ?_) ?_
        · exact (stops_expect (rest_idents hp)).bind
        rintro ⟨first, c₂, h₂⟩ ⟨_, c₂', h₂'⟩ - rfl hgoes₂ -
        rcases follows_idents hgoes₂ with hrest | ⟨hvalue, hgoes₃⟩
        · exact .stops (stops_expect hrest).bind
        · refine .bind (follows_isToken (m := ⟨links, calls, .names⟩) (Site.ne_text rfl) rfl rfl
            hgoes₃) ?_
          rintro ⟨_, c₄, h₄⟩ ⟨_, c₄', h₄'⟩ - rfl hgoes₄
          refine .ok ?_ hgoes₄
          show some (_ :: _) = some (_ :: _)
          rw [hvalue]
      · rw [blockParams_of_ne hnext ht, blockParams_of_ne hnext' ht]
        exact .ok rfl hstay
  | word hnext hnext' _ _ _ hoff =>
      rw [blockParams_of_ne hnext (hne hoff.isWord),
        blockParams_of_ne hnext' (hne (hoff.of_noParams (Stage.noParams_pairs _ _)).1)]
      exact .ok rfl hstay

/-- An opening tag that ends with words misses its end. -/
theorem stops_opening {names : Bool} {opener : Text} (h : AtWords c) :
    Stops K ends (opening g names opener c) := by
  refine ((stops_call_words h).bind_ends fun p _ hp => ?_ : Stops K ends _).commit
  cases names with
  | true => exact (stops_blockParams hp).bind_ends fun p _ hp => (stops_expect hp).bind
  | false => exact (stops_expect hp).bind

/-- An opening tag in the first tokens is one in all of them. -/
theorem follows_opening (hg : Shares K g g') (names : Bool) {opener : Text}
    (h : Goes K ⟨links, calls, .tag⟩ c c') :
    Follows K Never ⟨links, [], .text⟩ (opening g names opener c) (opening g' names opener c') := by
  refine .commit h (fun hnone => (stops_call hnone).bind) fun _ => ?_
  cases names with
  | true =>
      refine .bind_ends (follows_call hg h) (fun p _ hp => .stops ?_) ?_
      · exact (stops_blockParams hp).bind_ends fun p _ hp => (stops_expect hp).bind
      rintro ⟨called, c₁, h₁⟩ ⟨_, c₁', h₁'⟩ - rfl hgoes -
      refine .bind_ends (follows_blockParams hgoes)
        (fun _ _ hp => .stops (stops_expect hp).bind) ?_
      rintro ⟨params, c₂, h₂⟩ ⟨_, c₂', h₂'⟩ - rfl hgoes -
      refine .bind (follows_closer hgoes (Site.ne_text rfl)) ?_
      rintro ⟨closer, c₃, h₃⟩ ⟨_, c₃', h₃'⟩ - rfl hgoes
      exact .ok rfl hgoes
  | false =>
      refine .bind_ends (follows_call hg h) (fun _ _ hp => .stops (stops_expect hp).bind) ?_
      rintro ⟨called, c₁, h₁⟩ ⟨_, c₁', h₁'⟩ - rfl hgoes -
      refine .bind (follows_closer hgoes (Site.ne_text rfl)) ?_
      rintro ⟨closer, c₂, h₂⟩ ⟨_, c₂', h₂'⟩ - rfl hgoes
      exact .ok rfl hgoes

/-- A closing tag that ends with its delimiter misses its end. -/
theorem stops_closing (h : c.rest = []) : Stops K ends (closing g c) := (stops_expect h).bind

/-- A closing tag in the first tokens is one in all of them. -/
theorem follows_closing (hg : Shares K g g') {x : Bool}
    (h : Goes K ⟨x :: links, calls, .tag⟩ c c') :
    Follows K Never ⟨links, [], .text⟩ (closing g c) (closing g' c') := by
  refine .bind (follows_blockClose h) ?_
  rintro ⟨opener, c₁, h₁⟩ ⟨_, c₁', h₁'⟩ - rfl hgoes
  refine .commit hgoes (fun hnone => (stops_expr hnone).bind) fun _ => ?_
  refine .bind_ends (follows_expr hg hgoes)
    (fun _ _ hp => .stops (stops_expect (hp.rest_eq_nil rfl)).bind) ?_
  rintro ⟨path, c₂, h₂⟩ ⟨_, c₂', h₂'⟩ - rfl hgoes -
  refine .bind (follows_closer hgoes (Site.ne_text rfl)) ?_
  rintro ⟨closer, c₃, h₃⟩ ⟨_, c₃', h₃'⟩ - rfl hgoes
  exact .ok rfl hgoes

/-! ## Leaves -/

theorem stops_mustache {start : Nat} {unescaped : Bool} {opener : Text} (h : AtWords c) :
    Stops K ends (mustache g start unescaped opener c) := by
  refine ((stops_call_words h).bind_ends fun p _ hp => ?_ : Stops K ends _).commit
  cases unescaped with
  | true => exact (stops_expect hp).bind
  | false => exact (stops_expect hp).bind

/-- A mustache in the first tokens is one in all of them. -/
theorem follows_mustache (hg : Shares K g g') {start : Nat} (hstart : K.shared start)
    {unescaped : Bool} {opener : Text} (h : Goes K ⟨links, calls, .tag⟩ c c') :
    Follows K Never ⟨links, [], .text⟩ (mustache g start unescaped opener c)
      (mustache g' start unescaped opener c') := by
  have hbuilt : ∀ {called : Call} {strip : Strip} {c c' : Cursor}, Goes K ⟨links, [], .text⟩ c c' →
      g'.builder.mustache opener called strip (g'.extent start c') =
        g.builder.mustache opener called strip (g.extent start c) := by
    intro called strip c c' hgoes
    rw [hg.builder, hg.extent_eq hgoes hstart]
  refine .commit h (fun hnone => (stops_call hnone).bind) fun _ => ?_
  cases unescaped with
  | true =>
      refine .bind_ends (follows_call hg h) (fun _ _ hp => .stops (stops_expect hp).bind) ?_
      rintro ⟨called, c₁, h₁⟩ ⟨_, c₁', h₁'⟩ - rfl hgoes -
      refine .bind (follows_unescapedCloser hgoes (Site.ne_text rfl)) ?_
      rintro ⟨closer, c₂, h₂⟩ ⟨_, c₂', h₂'⟩ - rfl hgoes
      exact .ok (hbuilt hgoes) hgoes
  | false =>
      refine .bind_ends (follows_call hg h) (fun _ _ hp => .stops (stops_expect hp).bind) ?_
      rintro ⟨called, c₁, h₁⟩ ⟨_, c₁', h₁'⟩ - rfl hgoes -
      refine .bind (follows_closer hgoes (Site.ne_text rfl)) ?_
      rintro ⟨closer, c₂, h₂⟩ ⟨_, c₂', h₂'⟩ - rfl hgoes
      exact .ok (hbuilt hgoes) hgoes

theorem stops_inclusion {start : Nat} {opener : Text} (h : AtWords c) :
    Stops K ends (inclusion g start opener c) :=
  ((stops_call_words h).bind_ends fun _ _ hp => (stops_expect hp).bind : Stops K ends _).commit

/-- A partial in the first tokens is one in all of them. -/
theorem follows_inclusion (hg : Shares K g g') {start : Nat} (hstart : K.shared start)
    {opener : Text} (h : Goes K ⟨links, calls, .tag⟩ c c') :
    Follows K Never ⟨links, [], .text⟩ (inclusion g start opener c)
      (inclusion g' start opener c') := by
  refine .commit h (fun hnone => (stops_call hnone).bind) fun _ => ?_
  refine .bind_ends (follows_call hg h) (fun _ _ hp => .stops (stops_expect hp).bind) ?_
  rintro ⟨called, c₁, h₁⟩ ⟨_, c₁', h₁'⟩ - rfl hgoes -
  refine .bind (follows_closer hgoes (Site.ne_text rfl)) ?_
  rintro ⟨closer, c₂, h₂⟩ ⟨_, c₂', h₂'⟩ - rfl hgoes
  refine .ok ?_ hgoes
  dsimp only
  rw [hg.builder, hg.extent_eq hgoes hstart]
  rfl

/-! ## Raw blocks -/

/-- The texts of a raw block end with the tokens. -/
theorem rest_contents (h : c.rest = []) : (contents g c).cursor.rest = [] := by
  rw [contents, Cursor.next?_eq_none h]
  exact h

/-- The texts of a raw block are the same, or the tokens end among them. -/
theorem follows_contents (hg : Shares K g g') {c c' : Cursor}
    (h : Goes K ⟨links, [], .raw⟩ c c') :
    (contents g c).cursor.rest = [] ∨
      (contents g' c').value = (contents g c).value ∧
        Goes K ⟨links, [], .raw⟩ (contents g c).cursor (contents g' c').cursor := by
  cases h.next nofun with
  | stop hnone => exact .inl (rest_contents hnone)
  | @token t s c₁ c₁' h₁ h₁' hnext hnext' hstart hgoes =>
      rw [contents, contents]
      simp only [hnext, hnext']
      cases t with
      | content text =>
          rcases follows_contents hg hgoes with hrest | ⟨hvalue, hgoes₂⟩
          · exact .inl hrest
          · refine .inr ⟨?_, hgoes₂⟩
            show _ :: _ = _ :: _
            rw [hvalue, hg.builder, hg.extent_eq hgoes hstart]
      | _ => exact .inr ⟨rfl, h⟩
  | word _ _ _ hm => cases hm
termination_by c.rest.length

/-- A raw block that ends with its delimiter misses its closer. -/
theorem stops_rawBlock {start : Nat} (h : c.rest = []) : Stops K ends (rawBlock g start c) :=
  (stops_call h).bind.commit

/-- A raw block in the first tokens is one in all of them. -/
theorem follows_rawBlock (hg : Shares K g g') {start : Nat} (hstart : K.shared start)
    (h : Goes K ⟨links, calls, .tag⟩ c c') :
    Follows K Never ⟨links, [], .text⟩ (rawBlock g start c) (rawBlock g' start c') := by
  refine .commit h (fun hnone => (stops_call hnone).bind) fun _ => ?_
  refine .bind_ends (follows_call hg h) (fun _ _ hp => .stops (stops_expect hp).bind) ?_
  rintro ⟨called, c₁, h₁⟩ ⟨_, c₁', h₁'⟩ - rfl hgoes -
  refine .bind (follows_isToken (m := ⟨links, calls, .pairs⟩) (Site.ne_text rfl) rfl rfl hgoes) ?_
  rintro ⟨_, c₂, h₂⟩ ⟨_, c₂', h₂'⟩ - rfl hgoes₂
  rcases follows_contents hg hgoes₂ with hrest | ⟨hvalue, hgoes₃⟩
  · exact .stops (stops_expect hrest).bind
  refine .bind (follows_rawEnd hgoes₃) ?_
  rintro ⟨name, c₄, h₄⟩ ⟨_, c₄', h₄'⟩ - rfl hgoes₄
  dsimp only
  rw [hg.builder, hvalue, hg.extent_eq hgoes₄ hstart]
  exact .lift fun block _ => .ok rfl hgoes₄

/-! ## Statements that end early -/

/-- At the end there are no more statements. -/
theorem stops_statements (h : c.rest = []) : Stops K Spent (statements g c) := by
  rw [statements, Cursor.peek?_eq_none h, if_neg nofun]
  exact h

/-- A link that ends with its delimiter misses its end. -/
theorem stops_section_link (h : ∃ opener s, c.rest = [⟨.opener .chain opener, s⟩]) :
    Stops K ends (section? g true c) := by
  obtain ⟨last, rest⟩ := c
  obtain ⟨opener, s, hrest⟩ := h
  obtain rfl : rest = _ := hrest
  rw [section?]
  exact (stops_opening (atWords_of_rest rfl)).bind

/-- At the end there is no else section yet. -/
theorem stops_section {chains : Bool} (h : c.rest = []) : Stops K Spent (section? g chains c) := by
  rw [section?, Cursor.next?_eq_none h]
  exact h

/-- Where statements end early, there is no else section yet, or a link that ends early. -/
theorem stops_section_linked {chains : Bool} (h : Linked (chains :: links) c) :
    Stops K Spent (section? g chains c) := by
  rcases h with hnil | ⟨rfl, hlink⟩
  · exact stops_section hnil
  · exact stops_section_link hlink

/-- Where no link may come, statements end early at the end only. -/
theorem Linked.rest_eq_nil (h : Linked links c) (hlinks : links.headD false = false) :
    c.rest = [] := by
  rcases h with hnil | ⟨hlink, -⟩
  · exact hnil
  · cases hlinks.symm.trans hlink

/-- A token that starts a statement is one, or asks for more, be it with a name behind it. -/
theorem stops_statement {l : Lexeme} {ls : List Lexeme} (h : c.rest = l :: ls)
    (hl : l.token.startsStatement = true)
    (hls : ls = [] ∨
      ∃ kind opener name s, l.token = .opener kind opener ∧ ls = [⟨.ident name, s⟩]) :
    Stops K Spent (statement g c) := by
  obtain ⟨last, rest⟩ := c
  obtain rfl : rest = l :: ls := h
  obtain ⟨t, s⟩ := l
  have hwords : AtWords ⟨s, ls⟩ := by
    rcases hls with rfl | ⟨_, _, name, s', _, rfl⟩
    · exact .nil
    · exact .cons rfl (fun _ => rfl) .nil
  rw [statement]
  cases t with
  | content | comment => exact hls.resolve_right nofun
  | opener kind opener =>
      cases kind with
      | plain | unescaped => exact (stops_mustache hwords).bind
      | inclusion => exact (stops_inclusion hwords).bind
      | block | inverse | inclusionBlock => exact (stops_opening hwords).bind
      | close | chain => cases hl
  | rawOpener => exact (stops_rawBlock (hls.resolve_right nofun)).bind
  | _ => cases hl

/-- A piece of a call starts no else section. -/
theorem section_of_piece {chains : Bool} {t : Token} {s : Span} {c₁ : Cursor}
    {h₁ : c₁.rest.length < c.rest.length} (hnext : c.next? = some ⟨⟨t, s⟩, c₁, h₁⟩)
    (ht : isPiece t = true) : section? g chains c = .ok (.stay c none) := by
  rw [section?]
  simp only [hnext]
  cases t <;> first | rfl | cases ht

/-- The head of a block remembers its delimiter. -/
theorem opener_of_opening {named : Bool} {opener : Text} {p : Parsed BlockOpening c.rest.length}
    (h : opening g named opener c = .ok p) : p.value.opener = opener := by
  obtain ⟨⟨called, c₁, h₁⟩, hcall, h⟩ := exists_of_bind_eq_ok (Cursor.eq_ok_of_commit h)
  cases named with
  | true =>
      obtain ⟨⟨names, c₂, h₂⟩, hnames, h⟩ := exists_of_bind_eq_ok h
      obtain ⟨⟨closer, c₃, h₃⟩, hcloser, h⟩ := exists_of_bind_eq_ok h
      cases h
      rfl
  | false =>
      obtain ⟨⟨closer, c₂, h₂⟩, hcloser, h⟩ := exists_of_bind_eq_ok h
      cases h
      rfl

/-- A block without a closing tag is refused only for its else section. -/
theorem exists_of_link_eq_error {b : Builder} {head : BlockOpening} {program : Program}
    {other : Option ElseSection} {x : Extent} {e : BuildError}
    (h : b.block head program other (other.map fun s => ⟨none, s.strip⟩) false x = .error e) :
    (e.code = .inverseOnDecorator ∧ '*' ∈ head.opener) ∨ e.code = .brokenChain := by
  cases other with
  | none => cases h
  | some s =>
      rcases error_of_bind_eq_error h with h | ⟨inverse, h⟩
      · unfold Builder.inverseProgram at h
        dsimp only at h
        split at h
        · next hstar =>
            cases h
            exact .inl ⟨rfl, List.contains_iff_mem.mp hstar⟩
        · split at h
          · split at h
            · cases h
            · cases h
              exact .inr rfl
          · cases h
      · cases h

/-- A link of a chain that ends early: the builder makes it, or the chain has a `*`. -/
theorem stops_link {q : Parsed (Option ElseSection) (c.rest.length + 1)}
    (hq : section? g true c = .ok q) (hwithin : c.tokens <:+ K.tokens)
    {head : BlockOpening} (hopener : .opener .chain head.opener ∈ K.tokens) {program : Program}
    {x : Extent} {α : Type} {n : Nat} {f : Statement → Except Refusal (Parsed α n)}
    (hf : ∀ block, Stops K ends (f block)) :
    Stops K ends
      (Refusal.lift (g.builder.block head program q.value
        (q.value.map fun s => ⟨none, s.strip⟩) false x) >>= f) := by
  cases hblock : g.builder.block head program q.value
      (q.value.map fun s => ⟨none, s.strip⟩) false x with
  | ok block => exact hf block
  | error e =>
      rcases exists_of_link_eq_error hblock with ⟨hcode, hstar⟩ | hcode
      · exact ⟨.inl hcode, _, hopener, hstar⟩
      · obtain ⟨ls, hreads, -⟩ := sound_section? c hq
        have htokens : c.tokens = tokensOf ls ++ q.cursor.tokens :=
          (congrArg tokensOf hreads.rest_eq).trans (tokensOf_append ls q.cursor.rest)
        obtain ⟨opener, hmem, hstar⟩ := starred_of_block hq htokens rfl hblock hcode
        exact ⟨.inr hcode, opener,
          hwithin.mem (htokens ▸ List.mem_append_left _ hmem), hstar⟩

/-! ## Statements -/

mutual

/-- **Statements of the first tokens are statements of all of them,** up to the last one
that may be cut. -/
theorem follows_statements (hg : Shares K g g') {links : List Bool} {c c' : Cursor}
    (h : Goes K ⟨links, [], .text⟩ c c') :
    Follows K (Linked links) ⟨links, [], .tag⟩ (statements g c) (statements g' c') := by
  rcases h.next_text rfl with hnext | ⟨l, ls, hl, hstarts, hls⟩ | ⟨hlinks, opener, s, hrest⟩
  · cases hnext with
    | stop hnone => exact .stops ((stops_statements hnone).imp fun _ => .inl)
    | @token t s c₁ c₁' h₁ h₁' hnext hnext' hstart hgoes =>
        rw [statements, statements, Cursor.peek?_of_next? hnext, Cursor.peek?_of_next? hnext']
        split
        · refine .bind (follows_statement hg (.token hnext hnext' hstart hgoes)) ?_
          rintro ⟨s, c₁, h₁⟩ ⟨_, c₁', h₁'⟩ - rfl hgoes
          refine .bind_ends (follows_statements hg hgoes) (fun p _ hp => .stops hp) ?_
          rintro ⟨more, c₂, h₂⟩ ⟨_, c₂', h₂'⟩ - rfl hgoes -
          exact .ok rfl hgoes
        · next hstarts =>
            exact .ok rfl (h.inside hnext hnext' hgoes (Bool.eq_false_iff.mpr hstarts))
    | word _ _ _ hm => cases hm
  · have hpeek : c.peek?.any Token.startsStatement = true := by
      rw [Cursor.peek?, hl]
      exact hstarts
    refine .stops ?_
    rw [statements, if_pos hpeek]
    refine (stops_statement hl hstarts hls).bind_ends fun p _ hp => ?_
    exact (stops_statements hp).bind_ends fun p _ hp => .inl hp
  · have hpeek : ¬c.peek?.any Token.startsStatement = true := by
      rw [Cursor.peek?, hrest]
      nofun
    refine .stops ?_
    rw [statements, if_neg hpeek]
    exact .inr ⟨hlinks, opener, s, hrest⟩
termination_by 2 * c.rest.length + 1

/-- A statement in the first tokens is one in all of them. -/
theorem follows_statement (hg : Shares K g g') {links : List Bool} {c c' : Cursor}
    (h : Nexts K ⟨links, [], .text⟩ c c') :
    Follows K Never ⟨links, [], .text⟩ (statement g c) (statement g' c') := by
  cases h with
  | stop hnone =>
      rw [statement, Cursor.next?_eq_none hnone]
      exact .stops (stops_refuse hnone)
  | @token t s c₁ c₁' h₁ h₁' hnext hnext' hstart hgoes =>
      rw [statement, statement]
      simp only [hnext, hnext']
      cases t with
      | content | comment =>
          refine .ok ?_ hgoes
          dsimp only
          rw [hg.builder, hg.extent_eq hgoes hstart]
      | opener kind opener =>
          cases kind with
          | plain | unescaped =>
              refine .bind (follows_mustache hg hstart hgoes) ?_
              rintro ⟨s, c₂, h₂⟩ ⟨_, c₂', h₂'⟩ - rfl hgoes
              exact .ok rfl hgoes
          | inclusion =>
              refine .bind (follows_inclusion hg hstart hgoes) ?_
              rintro ⟨s, c₂, h₂⟩ ⟨_, c₂', h₂'⟩ - rfl hgoes
              exact .ok rfl hgoes
          | block | inverse =>
              refine .bind (follows_opening hg _ hgoes) ?_
              rintro ⟨head, c₂, h₂⟩ ⟨_, c₂', h₂'⟩ - rfl hgoes₂
              refine .commit hgoes₂ (fun hnone => ?_) fun _ => ?_
              · refine (stops_statements hnone).bind_ends fun p _ hp => ?_
                exact (stops_section hp).bind_ends fun q _ hq => (stops_closing hq).bind
              refine .bind_ends (follows_statements hg hgoes₂) (fun p _ hp => .stops ?_) ?_
              · exact (stops_section_linked hp).bind_ends fun q _ hq => (stops_closing hq).bind
              rintro ⟨body, c₃, h₃⟩ ⟨_, c₃', h₃'⟩ - rfl hgoes₃ -
              have hless : c₃.rest.length < c.rest.length :=
                Nat.lt_of_lt_of_le h₃ (Nat.lt_trans h₂ h₁)
              refine .bind_ends (follows_section hg hgoes₃)
                (fun q _ hq => .stops (stops_closing hq).bind) ?_
              rintro ⟨other, c₄, h₄⟩ ⟨_, c₄', h₄'⟩ - rfl hgoes₄ -
              refine .bind (follows_closing hg hgoes₄) ?_
              rintro ⟨tail, c₅, h₅⟩ ⟨_, c₅', h₅'⟩ - rfl hgoes₅
              dsimp only
              rw [hg.builder, hg.extent_eq hgoes₅ hstart]
              exact .lift fun block _ => .ok rfl hgoes₅
          | inclusionBlock =>
              refine .bind (follows_opening hg _ hgoes) ?_
              rintro ⟨head, c₂, h₂⟩ ⟨_, c₂', h₂'⟩ - rfl hgoes₂
              refine .commit hgoes₂ (fun hnone => ?_) fun _ => ?_
              · exact (stops_statements hnone).bind_ends fun p _ hp => (stops_closing hp).bind
              refine .bind_ends (follows_statements hg hgoes₂)
                (fun p _ hp => .stops (stops_closing (hp.rest_eq_nil rfl)).bind) ?_
              rintro ⟨body, c₃, h₃⟩ ⟨_, c₃', h₃'⟩ - rfl hgoes₃ -
              refine .bind (follows_closing hg hgoes₃) ?_
              rintro ⟨tail, c₄, h₄⟩ ⟨_, c₄', h₄'⟩ - rfl hgoes₄
              dsimp only
              rw [hg.builder, hg.extent_eq hgoes₄ hstart]
              exact .lift fun block _ => .ok rfl hgoes₄
          | close | chain => exact follows_refuse hnext hnext' hstart hgoes
      | rawOpener =>
          refine .bind (follows_rawBlock hg hstart hgoes) ?_
          rintro ⟨s, c₂, h₂⟩ ⟨_, c₂', h₂'⟩ - rfl hgoes
          exact .ok rfl hgoes
      | _ => exact follows_refuse hnext hnext' hstart hgoes
  | word _ _ _ hm => cases hm
termination_by 2 * c.rest.length

/-- An else section of the first tokens starts one of all of them, with the links behind
it. -/
theorem follows_section (hg : Shares K g g') {chains : Bool} {links : List Bool} {c c' : Cursor}
    (h : Goes K ⟨chains :: links, [], .tag⟩ c c') :
    Follows K Spent ⟨true :: links, [], .tag⟩ (section? g chains c) (section? g' chains c') := by
  have hstay : Goes K ⟨true :: links, [], .tag⟩ c c' :=
    h.weaken (.site (.top _) (.refl _) (.refl _))
  cases h.next (Site.ne_text rfl) with
  | stop hnone => exact .stops (stops_section hnone)
  | @token t s c₁ c₁' h₁ h₁' hnext hnext' hstart hgoes =>
      rw [section?, section?]
      simp only [hnext, hnext']
      cases t with
      | elseTag text =>
          refine .bind_ends (follows_statements hg hgoes)
            (fun p _ hp => .stops (hp.rest_eq_nil rfl)) ?_
          rintro ⟨body, c₂, h₂⟩ ⟨_, c₂', h₂'⟩ - rfl hgoes -
          exact .ok rfl (hgoes.weaken (.site (.top _) (.refl _) (.refl _)))
      | opener kind opener =>
          cases kind with
          | chain =>
              cases chains with
              | false => exact .ok rfl hstay
              | true =>
                  refine .bind (follows_opening hg _ hgoes) ?_
                  rintro ⟨_, c₂, h₂⟩ ⟨head, c₂', h₂'⟩ hhead rfl hgoes₂
                  have hopener : .opener .chain head.opener ∈ K.tokens := by
                    obtain rfl : head.opener = opener := opener_of_opening hhead
                    refine h.within.mem ?_
                    rw [Cursor.tokens_of_next? hnext]
                    exact List.mem_cons_self
                  have hspent : ∀ {c : Cursor}, c.rest = [] → c.tokens <:+ K.tokens := by
                    intro c hc
                    rw [Cursor.tokens, hc]
                    exact List.nil_suffix
                  refine .commit hgoes₂ (fun hnone => ?_) fun _ => ?_
                  · refine (stops_statements hnone).bind_ends fun p _ hp => ?_
                    refine (stops_section hp).bind_ends fun q hq hrest => ?_
                    exact stops_link hq (hspent hp) hopener fun block => hrest
                  refine .bind_ends (follows_statements hg hgoes₂) (fun p _ hp => .stops ?_) ?_
                  · rcases hp with hp | ⟨-, hlink⟩
                    · refine (stops_section hp).bind_ends
                        fun q hq hrest => ?_
                      exact stops_link hq (hspent hp) hopener fun block => hrest
                    · exact (stops_section_link hlink).bind
                  rintro ⟨body, c₃, h₃⟩ ⟨_, c₃', h₃'⟩ - rfl hgoes₃ -
                  have hless : c₃.rest.length < c.rest.length :=
                    Nat.lt_of_lt_of_le h₃ (Nat.lt_trans h₂ h₁)
                  refine .bind_ends (follows_section hg hgoes₃)
                    (fun q hq hrest => .stops ?_) ?_
                  · exact stops_link hq hgoes₃.within hopener fun block => hrest
                  rintro ⟨other, c₄, h₄⟩ ⟨_, c₄', h₄'⟩ - rfl hgoes₄ -
                  dsimp only
                  rw [hg.builder, hg.extent_eq hgoes₄ hstart]
                  exact .lift fun block _ => .ok rfl hgoes₄
          | _ => exact .ok rfl hstay
      | _ => exact .ok rfl hstay
  | word hnext hnext' _ _ _ hoff =>
      rw [section_of_piece hnext (isPiece_of_isWord hoff.isWord),
        section_of_piece hnext' hoff.piece]
      exact .ok rfl hstay
termination_by 2 * c.rest.length

end

/-! ## Programs -/

/-- Statements that take all tokens are a program. -/
theorem program_of_rest_eq_nil {ls : List Lexeme} {p : Parsed (List Statement) (ls.length + 1)}
    (h : statements g ⟨⟨0, 0⟩, ls⟩ = .ok p) (hrest : p.cursor.rest = []) :
    g.program ls = .ok (Builder.program p.value none) := by
  rw [program, h]
  show (if p.cursor.rest.isEmpty then _ else _) = _
  rw [hrest]
  rfl

/-- What starts no statement is not expected. -/
theorem program_of_next? {ls : List Lexeme} {p : Parsed (List Statement) (ls.length + 1)}
    (h : statements g ⟨⟨0, 0⟩, ls⟩ = .ok p) {l : Lexeme} {c₁ : Cursor} {h₁ : _}
    (hnext : p.cursor.next? = some ⟨l, c₁, h₁⟩) :
    g.program ls = .error (.mismatch .endOfInput (some l.span) (some l.span)) := by
  have hrest : ¬p.cursor.rest.isEmpty = true := fun h =>
    Cursor.rest_ne_nil_of_next? hnext (List.isEmpty_iff.mp h)
  rw [program, h]
  show (if p.cursor.rest.isEmpty then _ else _) = _
  rw [if_neg hrest, Cursor.refuse, Cursor.commit_error, Cursor.here?_of_next? hnext]
  rfl

/-- A template is refused for what its first tokens are refused for, unless these only end too
early. -/
theorem follows_program (hg : Shares K g g') {ls ls' : List Lexeme}
    (hwithin : K.tokens = tokensOf ls) (hzero : K.shared 0)
    (hspans : ∀ l ∈ ls, K.shared l.span.start ∧ K.shared l.span.stop)
    (h : Begins K.whole .initial ls ls') {r : Refusal} (hr : g.program ls = .error r) :
    RunsOut K.tokens r ∨
      ∃ r', g'.program ls' = .error r' ∧ (K.whole = true → r' = r ∧ Placed K r) := by
  have hgoes : Goes K .initial ⟨⟨0, 0⟩, ls⟩ ⟨⟨0, 0⟩, ls'⟩ :=
    ⟨rfl, hzero, hspans, hwithin ▸ List.suffix_rfl, h⟩
  have hfollows := follows_statements hg hgoes
  cases hx : statements g ⟨⟨0, 0⟩, ls⟩ with
  | error r₀ =>
      rw [program, hx] at hr
      cases hr
      rw [hx] at hfollows
      rcases hfollows with hstops | hagrees
      · exact .inl hstops
      · generalize hx' : statements g' ⟨⟨0, 0⟩, ls'⟩ = x' at hagrees
        cases hagrees with
        | @error _ r' heq =>
            refine .inr ⟨r', ?_, heq⟩
            rw [program, hx']
            rfl
  | ok p =>
      have hrest : p.cursor.rest ≠ [] := by
        intro hrest
        rw [program_of_rest_eq_nil hx hrest] at hr
        cases hr
      rw [hx] at hfollows
      rcases hfollows with hstops | hagrees
      · exact absurd (hstops.rest_eq_nil rfl) hrest
      · generalize hx' : statements g' ⟨⟨0, 0⟩, ls'⟩ = x' at hagrees
        cases hagrees with
        | ok hvalue hgoes =>
            cases hgoes.next (Site.ne_text rfl) with
            | stop hnone => exact absurd hnone hrest
            | @token t s c₁ c₁' h₁ h₁' hnext hnext' hstart hgoes₁ =>
                rw [program_of_next? hx hnext] at hr
                cases hr
                have hlast : c₁.last = s := (Cursor.reads_of_next? hnext).last_eq
                refine .inr ⟨_, program_of_next? hx' hnext', fun _ => ⟨rfl, ?_⟩⟩
                rintro s' (hs' | hs')
                · obtain rfl := Option.some.inj hs'
                  exact ⟨hstart, hlast ▸ hgoes₁.shared⟩
                · obtain rfl := Option.some.inj hs'
                  exact ⟨hstart, hlast ▸ hgoes₁.shared⟩
            | word hnext hnext' hwhole =>
                exact .inr ⟨_, program_of_next? hx' hnext',
                  fun h => by cases h.symm.trans hwhole⟩

end Grammar
end Stache
