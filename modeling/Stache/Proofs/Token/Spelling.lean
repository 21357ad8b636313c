import Stache.Builder.Basic
import Stache.Proofs.Token.Row
import Stache.Proofs.Token.Slices
import Stache.Token.Scan

/-!
# How delimiters are spelled

Every opening delimiter that the scanner returns starts with two braces, and
every closing one ends with two.  So the markers that the builder reads off a
delimiter are those that stand at the start and at the end of the tag
(`part_ofDelimiters`).
-/

namespace Stache

/-- The token starts with `{{` if it starts a tag, and ends with `}}` if it ends
one. -/
def Token.Delimited : Token → Prop
  | .opener _ t => ['{', '{'] <+: t
  | .closer t | .unescapedCloser t => ['}', '}'] <:+ t
  | .comment t | .elseTag t => ['{', '{'] <+: t ∧ ['}', '}'] <:+ t
  | _ => True

/-- If the token opens a link of an else chain or an inverted block, its delimiter has no
`*`. -/
def Token.Unstarred : Token → Prop
  | .opener .chain t | .opener .inverse t => '*' ∉ t
  | _ => True

/-! ## Markers -/

/-- A marker stands behind two braces. -/
theorem isPrefixOf_marked {c : Char} {t : Text} (h : [c, c] <+: t) :
    [c, c, '~'].isPrefixOf t = (t[2]? == some '~') := by
  obtain ⟨r, rfl⟩ := h
  cases r with
  | nil => simp [List.isPrefixOf]
  | cons d r =>
      have hcomm : ('~' == d) = (d == '~') := Bool.beq_comm
      simp [List.isPrefixOf, hcomm]

/-- An opening delimiter is marked by its third character. -/
theorem opensMarked_of_isPrefixOf {t : Text} (h : ['{', '{'] <+: t) :
    opensMarked t = (t[2]? == some '~') := isPrefixOf_marked h

/-- A closing delimiter is marked by its third character from the end. -/
theorem closesMarked_of_isSuffixOf {t : Text} (h : ['}', '}'] <:+ t) :
    closesMarked t = (t.reverse[2]? == some '~') :=
  isPrefixOf_marked (List.reverse_prefix.mpr h)

/-- The markers that are read off two delimiters are those of the tag between
them. -/
theorem part_ofDelimiters {opener closer : Text} (hopener : ['{', '{'] <+: opener)
    (hcloser : ['}', '}'] <:+ closer) (role : Role) :
    (Strip.ofDelimiters opener closer).part role =
      .tag role (opensMarked opener) (closesMarked closer) := by
  rw [opensMarked_of_isPrefixOf hopener, closesMarked_of_isSuffixOf hcloser]
  rfl

/-! ## Ends of delimiters -/

/-- The first `n` characters of a text end with two closing braces. -/
def EndsAt (t : Text) (n : Nat) : Prop := ['}', '}'] <:+ t.take n

/-- What ends with braces behind some characters ends with them in the whole. -/
theorem EndsAt.of_drop {t : Text} {k n : Nat} (h : EndsAt (t.drop k) n) : EndsAt t (k + n) := by
  rw [EndsAt, List.take_add]
  exact h.trans (List.suffix_append _ _)

theorem endsAt_two {t : Text} (h : ['}', '}'].isPrefixOf t = true) : EndsAt t 2 := by
  obtain ⟨r, rfl⟩ := List.isPrefixOf_iff_prefix.mp h
  exact List.suffix_refl _

/-- If each mark ends with braces, so does what is read up to the first one. -/
theorem endsAt_endOfFirst {mark : Text → Option Nat}
    (hmark : ∀ t n, mark t = some n → EndsAt t n) {t : Text} {n : Nat}
    (h : t.endOfFirst mark = some n) : EndsAt t n := by
  induction t generalizing n with
  | nil => cases h
  | cons c r ih =>
      rw [Text.endOfFirst] at h
      split at h
      · next width hwidth =>
          cases h
          exact hmark _ _ hwidth
      · obtain ⟨m, hm, rfl⟩ := Option.map_eq_some_iff.mp h
        rw [Nat.add_comm]
        exact EndsAt.of_drop (ih hm)

namespace Reading

/-- The end of a tag ends with two braces. -/
theorem endsAt_closingWidth? {cs : Text} {n : Nat} (h : closingWidth? cs = some n) :
    EndsAt cs n := by
  simp only [closingWidth?, Option.ite_none_right_eq_some, Option.some.injEq] at h
  obtain ⟨hend, rfl⟩ := h
  exact (endsAt_two hend).of_drop

/-- An else tag ends with two braces. -/
theorem endsAt_elseTagWidth? {cs : Text} {n : Nat} (h : elseTagWidth? cs = some n) :
    EndsAt cs n := by
  unfold elseTagWidth? at h
  split at h
  · next r =>
      obtain ⟨m, hm, rfl⟩ := Option.map_eq_some_iff.mp h
      have hend : EndsAt (List.drop 1 ('^' :: r)) m := endsAt_closingWidth? hm
      rw [Nat.add_comm]
      exact hend.of_drop
  · split at h
    · next width hwidth =>
        obtain ⟨m, hm, rfl⟩ := Option.map_eq_some_iff.mp h
        rw [Nat.add_comm]
        exact (endsAt_closingWidth? hm).of_drop
    · cases h

/-- A comment ends with two braces. -/
theorem endsAt_commentWidth? {body : Text} {n : Nat} (h : commentWidth? body = some n) :
    EndsAt body n := by
  rw [commentWidth?] at h
  split at h
  · refine endsAt_endOfFirst (fun t m hm => ?_) h
    split at hm
    · next hend =>
        cases hm
        obtain ⟨r, rfl⟩ := List.isPrefixOf_iff_prefix.mp hend
        exact ⟨['-', '-'], rfl⟩
    · split at hm
      · next hend =>
          cases hm
          obtain ⟨r, rfl⟩ := List.isPrefixOf_iff_prefix.mp hend
          exact ⟨['-', '-', '~'], rfl⟩
      · cases hm
  · refine endsAt_endOfFirst (fun t m hm => ?_) h
    split at hm
    · next hend =>
        cases hm
        exact endsAt_two hend
    · cases hm

/-! ## Every token -/

/-- The reading is no token whose delimiters are cut. -/
def Delimited : Reading → Prop
  | .token t _ => t.Delimited
  | _ => True

/-- An opening delimiter starts with two braces, whatever else belongs to it. -/
theorem Braces.opens {front r : Text} (h : Braces front r) (k : Nat) :
    ['{', '{'] <+: (front ++ r).take (front.length + k) := by
  rw [List.take_length_add_append]
  rcases h with ⟨rfl, -⟩ | rfl
  · exact List.prefix_append _ _
  · exact ⟨'~' :: r.take k, rfl⟩

/-- Delimiters are spelled in full. -/
theorem Delimiter.delimited {cs : Text} {x : Reading} (h : Delimiter cs x) : x.Delimited := by
  have hends {front r : Text} {k : Nat} (h : EndsAt r k) : EndsAt (front ++ r) (front.length + k) :=
    EndsAt.of_drop (by rwa [List.drop_left])
  cases h with
  | opener hcs hfront =>
      subst hcs
      exact hfront.opens _
  | elseTag hcs hfront h =>
      subst hcs
      exact ⟨hfront.opens _, hends (endsAt_elseTagWidth? h)⟩
  | @comment front body k hcs hfront h =>
      subst hcs
      have hend : EndsAt (List.drop 1 ('!' :: body)) k := endsAt_commentWidth? h
      rw [Nat.add_assoc]
      exact ⟨hfront.opens _, hends hend.of_drop⟩
  | unterminatedComment => trivial
  | unescapedCloser h | closer h =>
      exact (endsAt_two (List.isPrefixOf_iff_prefix.mpr h)).of_drop

theorem Symbol.delimited {spelling : Text} {t : Token} (h : Symbol spelling t) : t.Delimited := by
  cases h <;> trivial

/-- Every token is spelled in full. -/
theorem Shape.delimited {cs : Text} {x : Reading} (h : Shape cs x) : x.Delimited := by
  cases h with
  | delimiter h => exact h.delimited
  | symbol h => exact h.delimited
  | _ => trivial

/-- The delimiters that a text inside a tag starts with are spelled in full. -/
theorem all_readToken (square afterSeparator : Bool) (cs : Text) :
    All Delimited (readToken square afterSeparator cs) :=
  (shape_readToken square afterSeparator cs).mono Shape.delimited

/-! ## Openers without a star -/

/-- The reading is no link of an else chain and no inverted block with a `*` in its
delimiter. -/
def Unstarred : Reading → Prop
  | .token t _ => t.Unstarred
  | _ => True

theorem all_isTagSpace_take (cs : Text) : ∀ c ∈ cs.take (spaceWidth cs), isTagSpace c = true := by
  intro c hc
  have htake := List.prefix_iff_eq_take.mp (List.takeWhile_prefix isTagSpace (l := cs))
  rw [spaceWidth, ← htake] at hc
  exact List.all_eq_true.mp List.all_takeWhile c hc

/-- There is no star in the word `else` and the white space around it. -/
theorem not_mem_take_elseWidth? {cs : Text} {width : Nat} (h : elseWidth? cs = some width) :
    '*' ∉ cs.take width := by
  simp only [elseWidth?, Option.ite_none_right_eq_some, Option.some.injEq] at h
  obtain ⟨helse, rfl⟩ := h
  obtain ⟨r, hr⟩ := List.isPrefixOf_iff_prefix.mp helse
  intro hmem
  rw [List.take_add, ← hr] at hmem
  rcases List.mem_append.mp hmem with hmem | hmem
  · exact absurd (all_isTagSpace_take cs _ hmem) (by decide)
  · exact absurd hmem (by simp)

theorem not_mem_take_chainWidth? {cs : Text} {width : Nat} (h : chainWidth? cs = some width) :
    '*' ∉ cs.take width := by
  unfold chainWidth? at h
  split at h
  · next helse =>
      rw [Option.ite_none_left_eq_some, Option.some.injEq] at h
      obtain ⟨-, rfl⟩ := h
      exact not_mem_take_elseWidth? helse
  · cases h

theorem Braces.not_mem {front r : Text} (h : Braces front r) : '*' ∉ front := by
  rcases h with ⟨rfl, -⟩ | rfl <;> decide

/-- The openers of inverted blocks and of links add no star to their braces. -/
theorem Modifier.unstarred {front r : Text} {kind : Opener} {k : Nat} (h : Modifier r kind k)
    (hfront : '*' ∉ front) : (Token.opener kind (front ++ r.take k)).Unstarred := by
  have hfree {t : Text} (ht : '*' ∉ t) : '*' ∉ front ++ t := fun hmem =>
    (List.mem_append.mp hmem).elim hfront ht
  cases h with
  | inverse h =>
      have htake : ['^'] = r.take 1 := List.prefix_iff_eq_take.mp h
      exact hfree (by rw [← htake]; decide)
  | chain h => exact hfree (not_mem_take_chainWidth? h)
  | _ => trivial

/-- A delimiter of an inverted block or of a link has no star. -/
theorem Delimiter.unstarred {cs : Text} {x : Reading} (h : Delimiter cs x) : x.Unstarred := by
  cases h with
  | opener hcs hfront h =>
      rw [hcs, List.take_length_add_append]
      exact h.unstarred hfront.not_mem
  | _ => trivial

theorem Symbol.unstarred {spelling : Text} {t : Token} (h : Symbol spelling t) : t.Unstarred := by
  cases h <;> trivial

/-- No token is an inverted block or a link with a star. -/
theorem Shape.unstarred {cs : Text} {x : Reading} (h : Shape cs x) : x.Unstarred := by
  cases h with
  | delimiter h => exact h.unstarred
  | symbol h => exact h.unstarred
  | _ => trivial

theorem unstarred_readToken (square afterSeparator : Bool) (cs : Text) :
    All Unstarred (readToken square afterSeparator cs) :=
  (shape_readToken square afterSeparator cs).mono Shape.unstarred

end Reading

/-! ## The scanner -/

/-- The delimiters of some tokens are spelled in full. -/
def AllDelimited (ls : List Lexeme) : Prop := ∀ l ∈ ls, l.token.Delimited

theorem AllDelimited.left {ls ls' : List Lexeme} (h : AllDelimited (ls ++ ls')) :
    AllDelimited ls := (List.forall_mem_append.mp h).1

theorem AllDelimited.right {ls ls' : List Lexeme} (h : AllDelimited (ls ++ ls')) :
    AllDelimited ls' := (List.forall_mem_append.mp h).2

theorem AllDelimited.head {l : Lexeme} {ls : List Lexeme} (h : AllDelimited (l :: ls)) :
    AllDelimited [l] := List.forall_mem_singleton.mpr (h l List.mem_cons_self)

theorem AllDelimited.tail {l : Lexeme} {ls : List Lexeme} (h : AllDelimited (l :: ls)) :
    AllDelimited ls := fun l' hl => h l' (List.mem_cons_of_mem l hl)

namespace Scanner

variable (P : Token → Prop)

/-- What holds of text holds of each piece of it that is a token. -/
theorem forall_contentLexeme (hcontent : ∀ t, t ≠ [] → P (.content t)) (t : Text)
    (start stop : Nat) : ∀ l ∈ contentLexeme t start stop, P l.token := by
  unfold contentLexeme
  split
  · nofun
  · next hne =>
      intro l hl
      obtain rfl := List.mem_singleton.mp hl
      exact hcontent t fun hnil => hne (List.isEmpty_iff.mpr hnil)

/-- Between tags the scanner reads text that is not empty. -/
theorem forall_textStep (hcontent : ∀ t, t ≠ [] → P (.content t)) {s s' : State} {cs rest : Text}
    {ls : List Lexeme} (h : textStep s cs = .moved ls s' rest) : ∀ l ∈ ls, P l.token := by
  cases textStep_eq_moved_iff.mp h with
  | last | tag | doubled => exact forall_contentLexeme P hcontent _ _ _
  | escaped =>
      exact List.forall_mem_append.mpr
        ⟨forall_contentLexeme P hcontent _ _ _, forall_contentLexeme P hcontent _ _ _⟩

/-- What holds of text that is not empty, of the closers of raw blocks and of every token that
is read inside a tag holds of the tokens of one move. -/
theorem forall_step (hcontent : ∀ t, t ≠ [] → P (.content t)) (hrawEnd : ∀ name, P (.rawEnd name))
    {square : Bool}
    (hread : ∀ {after cs t width},
      Reading.readToken square after cs = some (.token t width) → P t)
    {s s' : State} {cs rest : Text} {ls : List Lexeme}
    (h : step square s cs = .moved ls s' rest) : ∀ l ∈ ls, P l.token := by
  rw [step] at h
  split at h
  · exact forall_textStep P hcontent h
  · obtain ⟨token, width, htoken, -, rfl, -, -⟩ := tagStep_eq_moved_iff.mp h
    exact List.forall_mem_singleton.mpr (hread htoken)
  · obtain ⟨width, name, -, rfl, -, -⟩ := rawStep_eq_moved_iff.mp h
    exact List.forall_mem_append.mpr
      ⟨forall_contentLexeme P hcontent _ _ _, List.forall_mem_singleton.mpr (hrawEnd name)⟩

/-- **What holds of every token that is read holds of all tokens of a text,** with the
text and the closers of raw blocks taken on their own. -/
theorem forall_scan (hcontent : ∀ t, t ≠ [] → P (.content t)) (hrawEnd : ∀ name, P (.rawEnd name))
    {square : Bool}
    (hread : ∀ {after cs t width},
      Reading.readToken square after cs = some (.token t width) → P t)
    (s : State) (cs : Text) : ∀ l ∈ (scan square s cs).lexemes, P l.token := by
  rw [scan]
  split
  · exact List.forall_mem_nil _
  · exact List.forall_mem_nil _
  · next ls s' rest hstep =>
      exact List.forall_mem_append.mpr ⟨forall_step P hcontent hrawEnd hread hstep,
        forall_scan hcontent hrawEnd hread s' rest⟩
termination_by measure s cs
decreasing_by exact step_measure ‹_›

end Scanner

/-- The delimiters of a template are spelled in full. -/
theorem delimited_tokenize (square : Bool) (text : Text) :
    AllDelimited (tokenize square text).lexemes :=
  Scanner.forall_scan Token.Delimited (fun _ _ => trivial) (fun _ => trivial)
    (fun h => Reading.all_readToken _ _ _ _ h) .initial text

/-- A delimiter that may not have a `*` has none. -/
theorem unstarred_tokenize {square : Bool} {text : Text} {l : Lexeme}
    (hl : l ∈ (tokenize square text).lexemes) : l.token.Unstarred :=
  Scanner.forall_scan Token.Unstarred (fun _ _ => trivial) (fun _ => trivial)
    (fun h => Reading.unstarred_readToken _ _ _ _ h) .initial text l hl

/-- No link of an else chain has a `*` in its delimiter. -/
theorem not_mem_of_tokenize {square : Bool} {text : Text} {l : Lexeme} {t : Text}
    (hl : l ∈ (tokenize square text).lexemes) (ht : l.token = .opener .chain t) : '*' ∉ t := by
  have hplain := unstarred_tokenize hl
  rw [ht] at hplain
  exact hplain

/-! ## Text -/

/-- If the token is text, it is not empty. -/
def Token.Filled : Token → Prop
  | .content t => t ≠ []
  | _ => True

/-- Inside of tags there is no text. -/
theorem filled_of_ofTag {t : Token} (h : t.ofTag = true) : t.Filled := by
  cases t with
  | content => cases h
  | _ => trivial

/-- The scanner returns no empty text. -/
theorem filled_tokenize {square : Bool} {text : Text} {l : Lexeme}
    (hl : l ∈ (tokenize square text).lexemes) : l.token.Filled :=
  Scanner.forall_scan Token.Filled (fun _ => id) (fun _ => trivial)
    (fun h => filled_of_ofTag (Reading.all_spelled_readToken _ _ _ _ h).1) .initial text l hl

end Stache
