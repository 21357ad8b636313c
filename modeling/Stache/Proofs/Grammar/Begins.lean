import Stache.Proofs.Grammar.Complete
import Stache.Proofs.Grammar.Stages
import Stache.Proofs.Source.Order
import Stache.Proofs.Token.Tiles

/-!
# Tokens that begin others

The grammar never goes back, so what it makes of the first tokens of a list does not depend
on the others, up to the place where the first tokens end.  This module compares two
readings: one of some tokens, and one of a list that they begin.

The two go the same way as long as tokens are left in the first (`Goes`).  There the first
one either ends without another token (`Stops`), or both give the same result (`Agrees`).  A
result that follows the other in this sense `Follows` it, and the lemmas below give this for
the steps that productions are made of.

The texts that the tokens were read from may differ behind them, and the last of the first
tokens may be cut.  Between tags it may be the start of a statement.  In a tag it may be a word,
which breaks off in the place of a longer one, of a separator or of `as |` (`BreaksOff`).  A list
that is cut inside a tag is told apart from one that is whole, for a path that breaks off is
reported at another place.
-/

namespace Stache

/-! ## The next token -/

namespace Cursor

variable {c c₁ : Cursor} {l : Lexeme} {h₁ : c₁.rest.length < c.rest.length}

/-- A cursor at the end comes to no token. -/
theorem next?_eq_none (h : c.rest = []) : c.next? = none := by
  obtain ⟨last, rest⟩ := c
  cases h
  rfl

theorem peek?_eq_none (h : c.rest = []) : c.peek? = none := by
  rw [peek?, h]
  rfl

/-- The place of a cursor is that of the token it comes to. -/
theorem here?_of_next? (h : c.next? = some ⟨l, c₁, h₁⟩) : c.here? = some l.span := by
  rw [here?, (reads_of_next? h).rest_eq]
  rfl

/-- A cursor sees the token that it comes to. -/
theorem peek?_of_next? (h : c.next? = some ⟨l, c₁, h₁⟩) : c.peek? = some l.token := by
  rw [peek?, (reads_of_next? h).rest_eq]
  rfl

/-- A phrase starts with the token that the cursor comes to. -/
theorem start_of_next? (h : c.next? = some ⟨l, c₁, h₁⟩) : c.start = l.span.start :=
  (reads_of_next? h).start_eq

theorem rest_ne_nil_of_next? (h : c.next? = some ⟨l, c₁, h₁⟩) : c.rest ≠ [] := by
  rw [(reads_of_next? h).rest_eq]
  exact List.cons_ne_nil _ _

/-- Whether a named argument comes next is read off the first two tokens. -/
theorem atPair_of_next? (h : c.next? = some ⟨l, c₁, h₁⟩) :
    c.atPair = Grammar.startsPair (l.token :: c₁.tokens) := by
  rw [atPair_eq, tokens_of_next? h]

end Cursor

/-- The refusal of a production that starts with the token at `first`. -/
def Refusal.since (first : Option Span) : Refusal → Refusal
  | .mismatch expected none found => .mismatch expected first found
  | r => r

/-- A refusal behind a commitment knows where its production started. -/
theorem Cursor.commit_error {α : Type} (c : Cursor) (r : Refusal) :
    c.commit (.error r : Except Refusal α) = .error (r.since c.here?) := by
  cases r with
  | rejected e => rfl
  | mismatch expected since found => cases since <;> rfl

namespace Grammar

/-- An identifier or a literal. -/
def isWord (t : Token) : Bool :=
  match t with
  | .ident _ => true
  | t => t.isLiteral

/-- A word, a separator or `as |`. -/
def isPiece (t : Token) : Bool :=
  match t with
  | .separator _ | .paramsOpen => true
  | t => isWord t

/-- A literal comes first, or a name that is no key. -/
def startsArgument : List Token → Bool
  | .ident _ :: .equals :: _ => false
  | t :: _ => isWord t
  | [] => false

/-- Words, the last of which may also be what a longer expression starts with. -/
inductive Words : List Token → Prop where
  | nil : Words []
  | cons {t : Token} {ts : List Token} (h : t.startsExpr = true)
      (hword : ts ≠ [] → isWord t = true) (hts : Words ts) : Words (t :: ts)

/-- A word `t₀` breaks off, with the words `ts₀` behind it, where the token `t` stands if more of
the text is read, with `ts` behind. -/
structure BreaksOff (m : Stage) (t₀ : Token) (ts₀ : List Token) (t : Token) (ts : List Token) :
    Prop where
  words : ∀ t' ∈ t₀ :: ts₀, isWord t' = true
  piece : isPiece t = true
  /-- Several words break off from a literal only, where they can be parameters. -/
  literal (hts : ts₀ ≠ []) : t.isLiteral = true ∧ m.noParams = false ∧ m.site.wantsName = false
  /-- Where no parameter can stand, no key, separator or `as |` breaks off. -/
  argument (hparams : m.noParams = true) : startsArgument (t :: ts) = true
  /-- Where a name is asked for, the word is one. -/
  name (hname : m.site.wantsName = true) : t₀.isLiteral = false
  /-- Behind a name of its path an operator breaks off from an operator only. -/
  operator (hsegment : m.site = .segment true) (h₀ : t₀.ident?.any isOperator = true) :
    t.ident?.any isOperator = true

/-- The tokens `ls` begin the tokens `ls'`, at the given place.  If they need not be `whole`, they
may end inside a tag, and there with words that break off, but not with a key where no parameter
can stand.  Between tags they may end with the start of a statement that goes on differently, be
it with a name behind its delimiter, or with the delimiter of a link where one may come. -/
inductive Begins (whole : Bool) : Stage → List Lexeme → List Lexeme → Prop where
  | stop {m : Stage} {ls' : List Lexeme} (h : whole = true → m.site.inTag = false) :
      Begins whole m [] ls'
  | piece {m : Stage} {l : Lexeme} {ls' : List Lexeme} (hwhole : whole = false)
      (hm : m.site = .text) (h : l.token.startsStatement = true) : Begins whole m [l] ls'
  | opener {m : Stage} {kind : Opener} {opener name : Text} {s s' : Span} {ls' : List Lexeme}
      (hwhole : whole = false) (hm : m.site = .text)
      (h : (Token.opener kind opener).startsStatement = true) :
      Begins whole m [⟨.opener kind opener, s⟩, ⟨.ident name, s'⟩] ls'
  | link {m : Stage} {opener : Text} {s : Span} {ls' : List Lexeme} (hwhole : whole = false)
      (hm : m.site = .text) (h : m.links.headD false = true) :
      Begins whole m [⟨.opener .chain opener, s⟩] ls'
  | word {m : Stage} {l₀ l : Lexeme} {ls ls' : List Lexeme} (hwhole : whole = false)
      (hm : m.site.inTag = true) (hstart : l₀.span.start = l.span.start)
      (h : BreaksOff m l₀.token (tokensOf ls) l.token (tokensOf ls')) :
      Begins whole m (l₀ :: ls) (l :: ls')
  | token {m : Stage} {l : Lexeme} {ls ls' : List Lexeme}
      (hkey : m.noParams = true → ls = [] → startsPair (tokensOf (l :: ls')) = false)
      (h : Begins whole (m.next l.token) ls ls') : Begins whole m (l :: ls) (l :: ls')

/-- What is known of a list of tokens that begins another. -/
structure Cut where
  /-- It ends between tags, and with a whole token. -/
  whole : Bool
  /-- The offsets up to which the two texts are the same. -/
  shared : Nat → Prop
  /-- The tokens. -/
  tokens : List Token

/-- Two cursors that have come the same way. -/
structure Goes (K : Cut) (m : Stage) (c c' : Cursor) : Prop where
  last : c'.last = c.last
  shared : K.shared c.last.stop
  spans : ∀ l ∈ c.rest, K.shared l.span.start ∧ K.shared l.span.stop
  within : c.tokens <:+ K.tokens
  rest : Begins K.whole m c.rest c'.rest

/-- What comes next for two cursors inside a tag or a raw block: the first tokens end, the same
token comes, or a word that breaks off in the first ones. -/
inductive Nexts (K : Cut) (m : Stage) (c c' : Cursor) : Prop where
  | stop (h : c.rest = [])
  | token {t : Token} {s : Span} {c₁ c₁' : Cursor} {h₁ : c₁.rest.length < c.rest.length}
      {h₁' : c₁'.rest.length < c'.rest.length} (hnext : c.next? = some ⟨⟨t, s⟩, c₁, h₁⟩)
      (hnext' : c'.next? = some ⟨⟨t, s⟩, c₁', h₁'⟩) (hstart : K.shared s.start)
      (h : Goes K (m.next t) c₁ c₁')
  | word {t₀ t : Token} {s₀ s : Span} {c₁ c₁' : Cursor} {h₁ : c₁.rest.length < c.rest.length}
      {h₁' : c₁'.rest.length < c'.rest.length} (hnext : c.next? = some ⟨⟨t₀, s₀⟩, c₁, h₁⟩)
      (hnext' : c'.next? = some ⟨⟨t, s⟩, c₁', h₁'⟩) (hwhole : K.whole = false)
      (hm : m.site.inTag = true) (hstart : s.start = s₀.start)
      (h : BreaksOff m t₀ c₁.tokens t c₁'.tokens)

/-- The two grammars make the same of what lies in the shared part of their texts. -/
structure Shares (K : Cut) (g g' : Grammar) : Prop where
  builder : g'.builder = g.builder
  extent {a b : Nat} (ha : K.shared a) (hb : K.shared b) :
    Source.extent g'.text ⟨a, b⟩ = Source.extent g.text ⟨a, b⟩
  slice {a b : Nat} (ha : K.shared a) (hb : K.shared b) : g'.text.slice a b = g.text.slice a b

/-! ## Results -/

/-- The refusal of tokens that end too early: another one is asked for.  The builder may also
refuse an else chain that has a `*` in a delimiter. -/
def RunsOut (ts : List Token) : Refusal → Prop
  | .mismatch _ _ found => found = none
  | .rejected e => (e.code = .inverseOnDecorator ∨ e.code = .brokenChain) ∧ Starred ts

/-- A reading is never done. -/
def Never (_ : Cursor) : Prop := False

/-- A reading is done where no token is left. -/
def Spent (c : Cursor) : Prop := c.rest = []

/-- Nothing but words is left. -/
def AtWords (c : Cursor) : Prop := Words c.tokens

/-- An expression is done where no token is left, or nothing but words that break off.  These are
parameters of its call, so one can stand there. -/
def Trails (K : Cut) (calls : List Bool) (c : Cursor) : Prop :=
  c.rest = [] ∨ K.whole = false ∧ calls.headD false = false ∧ AtWords c

/-- Statements are done where no token is left, or nothing but the delimiter of a link that may
come in their block. -/
def Linked (links : List Bool) (c : Cursor) : Prop :=
  c.rest = [] ∨ links.headD false = true ∧ ∃ opener s, c.rest = [⟨.opener .chain opener, s⟩]

/-- The reading ends without another token: it asks for one, or it is done where `ends` says. -/
def Stops (K : Cut) (ends : Cursor → Prop) {α : Type} {n : Nat} :
    Except Refusal (Parsed α n) → Prop
  | .ok p => ends p.cursor
  | .error r => RunsOut K.tokens r

/-- A refusal points at tokens in the shared part of the texts. -/
def Placed (K : Cut) : Refusal → Prop
  | .mismatch _ since found =>
      ∀ s, since = some s ∨ found = some s → K.shared s.start ∧ K.shared s.stop
  | .rejected _ => True

/-- The two readings give the same, or none of them gives anything. -/
inductive Agrees (K : Cut) (m : Stage) {α : Type} {n n' : Nat} :
    Except Refusal (Parsed α n) → Except Refusal (Parsed α n') → Prop where
  | ok {p : Parsed α n} {p' : Parsed α n'} (hvalue : p'.value = p.value)
      (h : Goes K m p.cursor p'.cursor) : Agrees K m (.ok p) (.ok p')
  | error {r r' : Refusal} (h : K.whole = true → r' = r ∧ Placed K r) :
      Agrees K m (.error r) (.error r')

/-- The first reading ends without another token, or the two give the same. -/
def Follows (K : Cut) (ends : Cursor → Prop) (m : Stage) {α : Type} {n n' : Nat}
    (x : Except Refusal (Parsed α n)) (x' : Except Refusal (Parsed α n')) : Prop :=
  Stops K ends x ∨ Agrees K m x x'

variable {K : Cut} {m m' : Stage} {ends ends' : Cursor → Prop} {c c' c₁ c₁' : Cursor}
  {α β : Type} {links calls : List Bool}
  {k k' n n' : Nat} {expected : Expected} {l : Lexeme} {t : Token} {s : Span}

/-! ## Cursors that go the same way -/

namespace Goes

/-- Two cursors in front of the same token both come to it. -/
theorem next_of_cons {ls ls' : List Lexeme} (h : Goes K m c c') (hls : c.rest = l :: ls)
    (hls' : c'.rest = l :: ls') (hrest : Begins K.whole (m.next l.token) ls ls') :
    Nexts K m c c' := by
  obtain ⟨last, rest⟩ := c
  obtain ⟨last', rest'⟩ := c'
  obtain rfl : rest = _ := hls
  obtain rfl : rest' = _ := hls'
  obtain ⟨hstart, hstop⟩ := h.spans l List.mem_cons_self
  exact .token (t := l.token) (s := l.span) rfl rfl hstart
    ⟨rfl, hstop, fun x hx => h.spans x (List.mem_cons_of_mem l hx),
      (List.suffix_cons _ _).trans h.within, hrest⟩

/-- Inside a tag and in a raw block the next token is the same, or a word that breaks off. -/
theorem next (h : Goes K m c c') (hm : m.site ≠ .text) : Nexts K m c c' := by
  have hbegins := h.rest
  generalize hls : c.rest = rest at hbegins
  generalize hls' : c'.rest = rest' at hbegins
  cases hbegins with
  | stop => exact .stop hls
  | piece _ htext | opener _ htext | link _ htext => exact absurd htext hm
  | token _ hrest => exact h.next_of_cons hls hls' hrest
  | @word _ l₀ l ls ls' hwhole htag hstart hoff =>
      obtain ⟨last, rest⟩ := c
      obtain ⟨last', rest'⟩ := c'
      obtain rfl : rest = _ := hls
      obtain rfl : rest' = _ := hls'
      exact .word (t := l.token) (s := l.span) rfl rfl hwhole htag hstart.symm hoff

/-- Between statements the next token may be the start of another one, and close to the end, or
that of a link. -/
theorem next_text (h : Goes K m c c') (hm : m.site = .text) :
    Nexts K m c c' ∨
      (∃ l ls, c.rest = l :: ls ∧ l.token.startsStatement = true ∧
        (ls = [] ∨
          ∃ kind opener name s, l.token = .opener kind opener ∧ ls = [⟨.ident name, s⟩])) ∨
      m.links.headD false = true ∧ ∃ opener s, c.rest = [⟨.opener .chain opener, s⟩] := by
  have hbegins := h.rest
  generalize hls : c.rest = rest at hbegins
  generalize hls' : c'.rest = rest' at hbegins
  cases hbegins with
  | stop => exact .inl (.stop hls)
  | piece _ _ hl => exact .inr (.inl ⟨_, [], rfl, hl, .inl rfl⟩)
  | opener _ _ hl => exact .inr (.inl ⟨_, _, rfl, hl, .inr ⟨_, _, _, _, rfl, rfl⟩⟩)
  | link _ _ hlinks => exact .inr (.inr ⟨hlinks, _, _, rfl⟩)
  | word _ htag =>
      rw [hm] at htag
      cases htag
  | token _ hrest => exact .inl (h.next_of_cons hls hls' hrest)

/-- A token that starts no statement stands in a tag as well. -/
theorem inside {h₁ : c₁.rest.length < c.rest.length} {h₁' : c₁'.rest.length < c'.rest.length}
    (h : Goes K ⟨links, [], .text⟩ c c') (hnext : c.next? = some ⟨⟨t, s⟩, c₁, h₁⟩)
    (hnext' : c'.next? = some ⟨⟨t, s⟩, c₁', h₁'⟩)
    (hgoes : Goes K (Stage.next ⟨links, [], .text⟩ t) c₁ c₁') (ht : t.startsStatement = false) :
    Goes K ⟨links, [], .tag⟩ c c' := by
  refine ⟨h.last, h.shared, h.spans, h.within, ?_⟩
  rw [(Cursor.reads_of_next? hnext).rest_eq, (Cursor.reads_of_next? hnext').rest_eq]
  refine .token nofun ?_
  have hrest := hgoes.rest
  cases t with
  | content => cases ht
  | _ => exact hrest

/-- Where a list inside a tag ends, it is not whole. -/
theorem whole_eq_false (h : Goes K m c c') (hm : m.site.inTag = true) (hrest : c.rest = []) :
    K.whole = false := by
  have hstop := h.rest
  rw [hrest] at hstop
  cases hstop with
  | stop hwhole =>
      refine Bool.eq_false_iff.mpr fun h => ?_
      rw [hwhole h] at hm
      cases hm

/-- Inside a tag, phrases start at the same place while tokens are left. -/
theorem start_eq (h : Goes K m c c') (hm : m.site ≠ .text) (hne : c.rest ≠ []) :
    c'.start = c.start ∧ K.shared c.start := by
  cases h.next hm with
  | stop hnone => exact absurd hnone hne
  | token hnext hnext' hstart _ =>
      rw [Cursor.start_of_next? hnext, Cursor.start_of_next? hnext']
      exact ⟨rfl, hstart⟩
  | word hnext hnext' _ _ hstart _ =>
      rw [Cursor.start_of_next? hnext, Cursor.start_of_next? hnext']
      refine ⟨hstart, (h.spans ⟨_, _⟩ ?_).1⟩
      rw [(Cursor.reads_of_next? hnext).rest_eq]
      exact List.mem_cons_self

/-- The next token of a whole list. -/
theorem exists_here? (h : Goes K m c c') (hwhole : K.whole = true) (hne : c.rest ≠ []) :
    ∃ s, c.here? = some s ∧ c'.here? = some s ∧ K.shared s.start ∧ K.shared s.stop := by
  have hbegins := h.rest
  have hspans := h.spans
  unfold Cursor.here?
  generalize c.rest = rest at hbegins hne hspans
  generalize c'.rest = rest' at hbegins
  cases hbegins with
  | stop => exact absurd rfl hne
  | piece hcut | opener hcut | link hcut | word hcut => exact absurd (hwhole.symm.trans hcut) nofun
  | token => exact ⟨_, rfl, rfl, hspans _ List.mem_cons_self⟩

end Goes

/-! ## Words -/

/-- A word is a name or a literal. -/
theorem ident_or_literal {t : Token} (h : isWord t = true) :
    (∃ name, t = .ident name) ∨ t.isLiteral = true := by
  cases t with
  | ident name => exact .inl ⟨name, rfl⟩
  | _ => exact .inr h

/-- A literal starts an expression, and a name does. -/
theorem startsExpr_of_isWord {t : Token} (h : isWord t = true) : t.startsExpr = true := by
  cases t <;> first | rfl | cases h

theorem isPiece_of_isWord {t : Token} (h : isWord t = true) : isPiece t = true := by
  cases t <;> first | rfl | cases h

/-- A word separates no segments. -/
theorem isSeparator_of_isWord {t : Token} (h : isWord t = true) : t.isSeparator = false := by
  cases t <;> first | rfl | cases h

/-- A name in front of a piece of a tag is no key. -/
theorem startsPair_piece {name : Text} {t : Token} (ht : isPiece t = true) (ts : List Token) :
    startsPair (.ident name :: t :: ts) = false := by
  cases t <;> first | rfl | cases ht

/-- What cannot start an expression cannot start a named argument. -/
theorem startsPair_of_ne_ident {t : Token} (ht : t.startsExpr = false) (ts : List Token) :
    startsPair (t :: ts) = false := by
  cases t <;> first | rfl | cases ht

/-- Words start no named argument. -/
theorem Words.startsPair_eq_false {ts : List Token} (h : Words ts) : startsPair ts = false := by
  cases h with
  | nil => rfl
  | @cons t ts _ _ hts =>
      cases t with
      | ident name =>
          cases hts with
          | nil => rfl
          | @cons t _ ht => cases t <;> first | rfl | cases ht
      | _ => rfl

/-- Words are such up to their end. -/
theorem words_of_all {ts : List Token} (h : ∀ t ∈ ts, isWord t = true) : Words ts := by
  induction ts with
  | nil => exact .nil
  | cons t ts ih =>
      have ht := h t List.mem_cons_self
      exact .cons (startsExpr_of_isWord ht) (fun _ => ht)
        (ih fun t' ht' => h t' (List.mem_cons_of_mem t ht'))

/-- What starts like an argument is a word, and no key. -/
theorem isWord_of_startsArgument {t : Token} {ts : List Token}
    (h : startsArgument (t :: ts) = true) : isWord t = true ∧ startsPair (t :: ts) = false := by
  unfold startsArgument at h
  split at h
  · cases h
  · next hkey heq =>
      cases heq
      refine ⟨h, ?_⟩
      unfold startsPair
      split
      · next heq =>
          cases heq
          exact absurd rfl (hkey _ _ rfl)
      · rfl
  · cases h

namespace BreaksOff

variable {t₀ : Token} {ts₀ ts : List Token}

/-- The first of what breaks off is a word. -/
theorem isWord (h : BreaksOff m t₀ ts₀ t ts) : Grammar.isWord t₀ = true :=
  h.words t₀ List.mem_cons_self

/-- What breaks off are words. -/
theorem atWords (h : BreaksOff m t₀ ts₀ t ts) : Words (t₀ :: ts₀) := words_of_all h.words

/-- Where no parameter can stand, a single word breaks off. -/
theorem eq_nil_of_noParams (h : BreaksOff m t₀ ts₀ t ts) (hm : m.noParams = true) : ts₀ = [] := by
  cases ts₀ with
  | nil => rfl
  | cons => exact absurd ((h.literal nofun).2.1.symm.trans hm) nofun

/-- Where a name is asked for, a single one breaks off. -/
theorem of_wantsName (h : BreaksOff m t₀ ts₀ t ts) (hm : m.site.wantsName = true) :
    ts₀ = [] ∧ ∃ name, t₀ = .ident name := by
  constructor
  · cases ts₀ with
    | nil => rfl
    | cons => exact absurd ((h.literal nofun).2.2.symm.trans hm) nofun
  · rcases ident_or_literal h.isWord with hident | hliteral
    · exact hident
    · exact absurd ((h.name hm).symm.trans hliteral) nofun

/-- Where no parameter can stand, what comes in place of a word is one that is no key. -/
theorem of_noParams (h : BreaksOff m t₀ ts₀ t ts) (hm : m.noParams = true) :
    Grammar.isWord t = true ∧ startsPair (t :: ts) = false :=
  isWord_of_startsArgument (h.argument hm)

/-- A word breaks off at any place of which less is known. -/
theorem weaken (h : BreaksOff m' t₀ ts₀ t ts) (hm : m.Weaker m') : BreaksOff m t₀ ts₀ t ts where
  words := h.words
  piece := h.piece
  literal hts := by
    obtain ⟨hliteral, hparams, hname⟩ := h.literal hts
    refine ⟨hliteral, Bool.eq_false_iff.mpr fun htrue => ?_, hm.wantsName_eq.trans hname⟩
    exact Bool.false_ne_true (hparams.symm.trans (hm.noParams_of htrue))
  argument hparams := h.argument (hm.noParams_of hparams)
  name hname := h.name (hm.wantsName_eq.symm.trans hname)
  operator hsegment := h.operator (hm.segment_of hsegment)

end BreaksOff

/-- Tokens begin others at any place of which less is known. -/
theorem Begins.weaken {whole : Bool} {m m' : Stage} {ls ls' : List Lexeme}
    (h : Begins whole m' ls ls') (hm : m.Weaker m') : Begins whole m ls ls' := by
  induction h generalizing m with
  | stop h => exact .stop fun hwhole => hm.inTag_eq.trans (h hwhole)
  | piece hwhole htext hl => exact .piece hwhole (hm.text_of htext) hl
  | opener hwhole htext hl => exact .opener hwhole (hm.text_of htext) hl
  | link hwhole htext hlinks => exact .link hwhole (hm.text_of htext) (hm.links.head hlinks)
  | word hwhole htag hstart hoff =>
      exact .word hwhole (hm.inTag_eq.trans htag) hstart (hoff.weaken hm)
  | token hkey _ ih => exact .token (fun h => hkey (hm.noParams_of h)) (ih (hm.next _))

/-- Two cursors go the same way from any place of which less is known. -/
theorem Goes.weaken (h : Goes K m' c c') (hm : m.Weaker m') : Goes K m c c' :=
  ⟨h.last, h.shared, h.spans, h.within, h.rest.weaken hm⟩

/-- Both lists start with the same, or the first has nothing but words.  Then no key stands in the
other where no parameter can. -/
theorem Begins.heads {whole : Bool} {ls ls' : List Lexeme} (h : Begins whole m ls ls')
    (hm : m.site.inTag = true) :
    (Words (tokensOf ls) ∧
        (m.noParams = true → ls ≠ [] → startsPair (tokensOf ls') = false)) ∨
      startsPair (tokensOf ls') = startsPair (tokensOf ls) ∧
        ls'.head?.map Lexeme.token = ls.head?.map Lexeme.token := by
  cases h with
  | stop => exact .inl ⟨.nil, fun _ hne => absurd rfl hne⟩
  | piece _ htext | opener _ htext | link _ htext => exact absurd htext (Site.ne_text hm)
  | word _ _ _ hoff => exact .inl ⟨hoff.atWords, fun hparams _ => (hoff.of_noParams hparams).2⟩
  | @token _ l ls ls' hkey hrest =>
      obtain ⟨t, s⟩ := l
      cases hexpr : t.startsExpr with
      | false =>
          exact .inr ⟨(startsPair_of_ne_ident hexpr _).trans (startsPair_of_ne_ident hexpr _).symm,
            rfl⟩
      | true =>
          cases ls with
          | nil => exact .inl ⟨.cons hexpr (absurd rfl) .nil, fun hparams _ => hkey hparams rfl⟩
          | cons l₂ ls =>
              refine .inr ⟨?_, rfl⟩
              cases t with
              | ident name =>
                  have hsite := Site.inTag_behind name m.site
                  cases hrest with
                  | piece _ htext | opener _ htext | link _ htext =>
                      exact absurd htext (Site.ne_text hsite)
                  | token => obtain ⟨t₂, _⟩ := l₂; cases t₂ <;> rfl
                  | word _ _ _ hoff =>
                      exact (startsPair_piece hoff.piece _).trans
                        (startsPair_piece (isPiece_of_isWord hoff.isWord) _).symm
              | _ => rfl

/-- Both cursors see the same, or nothing but words is left in the first tokens. -/
theorem Goes.heads (h : Goes K m c c') (hm : m.site.inTag = true) :
    AtWords c ∨ c'.atPair = c.atPair ∧ c'.peek? = c.peek? := by
  rw [c.atPair_eq, c'.atPair_eq]
  exact (h.rest.heads hm).imp_left And.left

/-- Where no parameter can stand, the first tokens do not end with a key. -/
theorem Goes.atPair_eq (h : Goes K m c c') (hm : m.site.inTag = true)
    (hparams : m.noParams = true) (hne : c.rest ≠ []) : c'.atPair = c.atPair := by
  rw [c.atPair_eq, c'.atPair_eq]
  rcases h.rest.heads hm with ⟨hwords, hkey⟩ | ⟨heq, -⟩
  · exact (hkey hparams hne).trans hwords.startsPair_eq_false.symm
  · exact heq

/-- Behind the parameters of a call no parameter can stand. -/
theorem Begins.behind {whole : Bool} {ls ls' : List Lexeme}
    (h : Begins whole ⟨links, calls, .tag⟩ ls ls') (hstop : Words (tokensOf ls) → ls = []) :
    Begins whole ⟨links, calls, .pairs⟩ ls ls' := by
  cases h with
  | stop hwhole => exact .stop hwhole
  | piece _ htext | opener _ htext | link _ htext => cases htext
  | word _ _ _ hoff => cases hstop hoff.atWords
  | @token _ l ls ls' _ hrest =>
      refine .token (fun _ hnil => ?_) ?_
      · subst hnil
        refine startsPair_of_ne_ident (Bool.eq_false_iff.mpr fun hexpr => ?_) _
        cases hstop (.cons hexpr (absurd rfl) .nil)
      · have hnext : Stage.next ⟨links, calls, .pairs⟩ l.token =
            Stage.next ⟨links, calls, .tag⟩ l.token := by
          cases l.token <;> rfl
        rw [hnext]
        exact hrest

/-- Words are parameters. -/
theorem atWords_of_rest_ne_nil (h : AtWords c) (hne : c.rest ≠ []) :
    c.atPair = false ∧ c.peek?.any Token.startsExpr = true := by
  obtain ⟨last, rest⟩ := c
  refine ⟨(Cursor.atPair_eq _).trans h.startsPair_eq_false, ?_⟩
  cases rest with
  | nil => exact absurd rfl hne
  | cons l ls =>
      cases h with
      | cons hexpr => exact hexpr

/-- The parameters of a call end in front of a named argument, and of what starts no
expression. -/
theorem Goes.behind (h : Goes K ⟨links, calls, .tag⟩ c c')
    (hstop : c.atPair = true ∨ c.peek?.any Token.startsExpr = false) :
    Goes K ⟨links, calls, .pairs⟩ c c' := by
  refine ⟨h.last, h.shared, h.spans, h.within, h.rest.behind fun hwords => ?_⟩
  by_cases hne : c.rest = []
  · exact hne
  · obtain ⟨hpair, hexpr⟩ := atWords_of_rest_ne_nil hwords hne
    rcases hstop with hstop | hstop
    · cases hpair.symm.trans hstop
    · cases hexpr.symm.trans hstop

/-- What two cursors cover from a shared offset on. -/
theorem Shares.extent_eq {g g' : Grammar} (h : Shares K g g') (hc : Goes K m c c') {start : Nat}
    (hstart : K.shared start) : g'.extent start c' = g.extent start c := by
  unfold Grammar.extent
  rw [hc.last]
  exact h.extent hstart hc.shared

/-- What both cursors have read lies at the same place in both texts. -/
theorem Shares.locate_eq {g g' : Grammar} (h : Shares K g g') (hc : Goes K m c c') {start : Nat}
    (hstart : K.shared start) : g'.locate start c' = g.locate start c := by
  unfold Grammar.locate
  rw [h.builder, h.extent_eq hc hstart]

/-- Two texts with the same front. -/
theorem shares_append (b : Builder) {s : Text} (t t' : Text)
    (h : ∀ {a : Nat}, K.shared a → a ≤ s.byteLength) : Shares K ⟨b, s ++ t⟩ ⟨b, s ++ t'⟩ where
  builder := rfl
  extent ha hb := by
    rw [Source.extent_append t' (h ha) (h hb), Source.extent_append t (h ha) (h hb)]
  slice _ hb := by
    rw [Text.slice_of_le_byteLength t' (h hb), Text.slice_of_le_byteLength t (h hb)]

/-! ## Readings that end without another token -/

/-- A reading that is done is done where more ways to end are allowed. -/
theorem Stops.imp {x : Except Refusal (Parsed α n)} (h : Stops K ends x)
    (himp : ∀ c, ends c → ends' c) : Stops K ends' x := by
  cases x with
  | ok p => exact himp p.cursor h
  | error r => exact h

/-- If the first part of a production ends early, so does the whole, provided that what
follows ends with the tokens. -/
theorem Stops.bind_ends {x : Except Refusal (Parsed α k)}
    {f : Parsed α k → Except Refusal (Parsed β n)} (hx : Stops K ends x)
    (hf : ∀ p, x = .ok p → ends p.cursor → Stops K ends' (f p)) : Stops K ends' (x >>= f) := by
  cases x with
  | ok p => exact hf p rfl hx
  | error r => exact hx

/-- A part that asks for another token stops the whole production. -/
theorem Stops.bind {x : Except Refusal (Parsed α k)} {f : Parsed α k → Except Refusal (Parsed β n)}
    (hx : Stops K Never x) : Stops K ends (x >>= f) :=
  hx.bind_ends fun _ _ hnever => hnever.elim

/-- A commitment does not change that tokens end too early. -/
theorem RunsOut.since {ts : List Token} {r : Refusal} (first : Option Span) (h : RunsOut ts r) :
    RunsOut ts (r.since first) := by
  cases r with
  | rejected e => exact h
  | mismatch _ since found => cases since <;> exact h

/-- A commitment to a token in the shared part keeps the refusal there. -/
theorem Placed.since {r : Refusal} (h : Placed K r)
    (hshared : K.shared s.start ∧ K.shared s.stop) : Placed K (r.since (some s)) := by
  cases r with
  | rejected e => trivial
  | mismatch expected since found =>
      cases since with
      | none =>
          rintro s' (hs' | hs')
          · obtain rfl := Option.some.inj hs'
            exact hshared
          · exact h s' (.inr hs')
      | some since => exact h

/-- A commitment does not change that a production ends early. -/
theorem Stops.commit {x : Except Refusal (Parsed α n)} (h : Stops K ends x) :
    Stops K ends (c.commit x) := by
  cases x with
  | ok p => exact h
  | error r =>
      rw [Cursor.commit_error]
      exact RunsOut.since c.here? h

/-- What is refused at the end is that the tokens end. -/
theorem stops_refuse (h : c.rest = []) :
    Stops K ends (c.refuse expected : Except Refusal (Parsed α n)) := by
  show c.here? = none
  rw [Cursor.here?, h]
  rfl

/-- At the end a token is missed. -/
theorem stops_expect {pick : Token → Option α} (h : c.rest = []) :
    Stops K ends (c.expect expected pick) := by
  rw [Cursor.expect, Cursor.next?_eq_none h]
  exact stops_refuse h

/-! ## Steps of productions -/

theorem Follows.stops {x : Except Refusal (Parsed α n)} {x' : Except Refusal (Parsed α n')}
    (h : Stops K ends x) : Follows K ends m x x' := .inl h

/-- Two refusals, where the first tokens are cut. -/
theorem Follows.differ {r r' : Refusal} (h : K.whole = false) :
    Follows K ends m (.error r : Except Refusal (Parsed α n))
      (.error r' : Except Refusal (Parsed α n')) :=
  .inr (.error fun hwhole => absurd (hwhole.symm.trans h) nofun)

/-- The same result, with cursors that go the same way. -/
theorem Follows.ok {p : Parsed α n} {p' : Parsed α n'} (hvalue : p'.value = p.value)
    (h : Goes K m p.cursor p'.cursor) : Follows K ends m (.ok p) (.ok p') := .inr (.ok hvalue h)

/-- Two steps, where the first may be done early. -/
theorem Follows.bind_ends {x : Except Refusal (Parsed α k)} {x' : Except Refusal (Parsed α k')}
    {f : Parsed α k → Except Refusal (Parsed β n)} {f' : Parsed α k' → Except Refusal (Parsed β n')}
    (hx : Follows K ends m x x')
    (hspent : ∀ p, x = .ok p → ends p.cursor → Follows K ends' m' (f p) (x' >>= f'))
    (hf : ∀ p p', x = .ok p → p'.value = p.value → Goes K m p.cursor p'.cursor →
      ¬ends p.cursor → Follows K ends' m' (f p) (f' p')) :
    Follows K ends' m' (x >>= f) (x' >>= f') := by
  rcases hx with hx | hx
  · cases x with
    | ok p => exact hspent p rfl hx
    | error r => exact .inl hx
  · cases hx with
    | @ok p p' hvalue hgoes =>
        by_cases hends : ends p.cursor
        · exact hspent p rfl hends
        · exact hf p p' rfl hvalue hgoes hends
    | error h => exact .inr (.error h)

/-- Two steps, where the first needs its tokens. -/
theorem Follows.bind {x : Except Refusal (Parsed α k)} {x' : Except Refusal (Parsed α k')}
    {f : Parsed α k → Except Refusal (Parsed β n)} {f' : Parsed α k' → Except Refusal (Parsed β n')}
    (hx : Follows K Never m x x')
    (hf : ∀ p p', x = .ok p → p'.value = p.value → Goes K m p.cursor p'.cursor →
      Follows K ends m' (f p) (f' p')) :
    Follows K ends m' (x >>= f) (x' >>= f') := by
  rcases hx with hx | hx
  · exact .inl hx.bind
  · cases hx with
    | @ok p p' hvalue hgoes => exact hf p p' rfl hvalue hgoes
    | error h => exact .inr (.error h)

/-- A production that is committed: it reads a token, or ends without one. -/
theorem Follows.commit {x : Except Refusal (Parsed α n)} {x' : Except Refusal (Parsed α n')}
    (hc : Goes K m c c') (hspent : c.rest = [] → Stops K ends x)
    (h : c.rest ≠ [] → Follows K ends m' x x') :
    Follows K ends m' (c.commit x) (c'.commit x') := by
  by_cases hrest : c.rest = []
  · exact .inl (hspent hrest).commit
  · rcases h hrest with h | h
    · exact .inl h.commit
    · cases h with
      | ok hvalue hgoes => exact .ok hvalue hgoes
      | @error r r' heq =>
          rw [Cursor.commit_error, Cursor.commit_error]
          refine .inr (.error fun hwhole => ?_)
          obtain ⟨s, hs, hs', hshared⟩ := hc.exists_here? hwhole hrest
          rw [(heq hwhole).1, hs, hs']
          exact ⟨rfl, (heq hwhole).2.since hshared⟩

/-- A node that the builder makes or refuses. -/
theorem Follows.lift {r : Except BuildError α} {f : α → Except Refusal (Parsed β n)}
    {f' : α → Except Refusal (Parsed β n')} (hf : ∀ a, r = .ok a → Follows K ends m (f a) (f' a)) :
    Follows K ends m (Refusal.lift r >>= f) (Refusal.lift r >>= f') := by
  cases r with
  | ok a => exact hf a rfl
  | error e => exact .inr (.error fun _ => ⟨rfl, trivial⟩)

/-- A token that none of the two expects. -/
theorem follows_refuse {h₁ : c₁.rest.length < c.rest.length}
    {h₁' : c₁'.rest.length < c'.rest.length}
    (hnext : c.next? = some ⟨⟨t, s⟩, c₁, h₁⟩) (hnext' : c'.next? = some ⟨⟨t, s⟩, c₁', h₁'⟩)
    (hstart : K.shared s.start) (h : Goes K m c₁ c₁') :
    Follows K ends m' (c.refuse expected : Except Refusal (Parsed α n))
      (c'.refuse expected : Except Refusal (Parsed α n')) := by
  have hstop : K.shared s.stop := by
    have hlast := (Cursor.reads_of_next? hnext).last_eq
    exact (congrArg Span.stop hlast) ▸ h.shared
  rw [Cursor.refuse, Cursor.refuse, Cursor.here?_of_next? hnext, Cursor.here?_of_next? hnext']
  refine .inr (.error fun _ => ⟨rfl, ?_⟩)
  rintro s' (hs' | hs')
  · cases hs'
  · obtain rfl := Option.some.inj hs'
    exact ⟨hstart, hstop⟩

/-- A token that is asked for, and that is no piece of a call. -/
theorem follows_expect {pick : Token → Option α} (h : Goes K m c c') (hm : m.site ≠ .text)
    (hpick : ∀ {t : Token} {a : α}, pick t = some a → m.next t = m')
    (hpiece : ∀ {t : Token}, isPiece t = true → pick t = none) :
    Follows K Never m' (c.expect expected pick) (c'.expect expected pick) := by
  cases h.next hm with
  | stop hnone => exact .stops (stops_expect hnone)
  | @token t s c₁ c₁' h₁ h₁' hnext hnext' hstart hgoes =>
      simp only [Cursor.expect, hnext, hnext']
      cases ht : pick t with
      | some a =>
          have hgoes' : Goes K m' c₁ c₁' := hpick ht ▸ hgoes
          exact .ok rfl hgoes'
      | none => exact follows_refuse hnext hnext' hstart hgoes
  | word hnext hnext' hwhole _ _ hoff =>
      simp only [Cursor.expect, hnext, hnext', hpiece (isPiece_of_isWord hoff.isWord),
        hpiece hoff.piece]
      exact .differ hwhole

end Grammar
end Stache
