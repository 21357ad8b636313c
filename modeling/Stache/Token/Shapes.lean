import Stache.Token.Reading

/-!
# What a text inside a tag starts with

`Shape cs x` lists the readings `x` that a text `cs` can start with, and `Delimiter cs x` those
that open or close a tag.  Each case says what stands at the start of the text: the spelling of a
symbol, the braces of a delimiter and the modifier behind them, the two ends of a string.  What
the cases leave out is the order in which they are tried, and what may follow a token.

Every reading has a shape (`shape_readToken`).  So what holds of all tokens of a tag is shown by
one case analysis over the shapes, and the alternatives of `readToken` are opened here only.  The
first such property is that a token has a character (`allProper_readToken`).
-/

namespace Stache
namespace Reading

/-! ## Shapes -/

/-- The tokens that have one spelling. -/
inductive Symbol : Text → Token → Prop
  | rawOpener : Symbol ['{', '{', '{', '{'] .rawOpener
  | rawCloser : Symbol ['}', '}', '}', '}'] .rawCloser
  | parenOpen : Symbol ['('] .parenOpen
  | parenClose : Symbol [')'] .parenClose
  | arrayOpen : Symbol ['['] .arrayOpen
  | arrayClose : Symbol [']'] .arrayClose
  | paramsClose : Symbol ['|'] .paramsClose
  | equals : Symbol ['='] .equals
  | data : Symbol ['@'] .data
  | parent : Symbol ['.', '.'] (.ident ['.', '.'])
  | this : Symbol ['.'] (.ident ['.'])
  | member : Symbol ['.', '#'] (.separator .member)
  | slash : Symbol ['/'] (.separator .slash)
  | yes : Symbol ['t', 'r', 'u', 'e'] (.boolean true)
  | no : Symbol ['f', 'a', 'l', 's', 'e'] (.boolean false)
  | undefined : Symbol ['u', 'n', 'd', 'e', 'f', 'i', 'n', 'e', 'd'] .undefined
  | null : Symbol ['n', 'u', 'l', 'l'] .null

/-- The braces that open a tag, with the marker behind them if there is one. -/
def Braces (front r : Text) : Prop :=
  front = ['{', '{'] ∧ r.head? ≠ some '~' ∨ front = ['{', '{', '~']

/-- What a delimiter that opens a tag takes of the text behind its braces: a
modifier, or the `else` of a chain link.  The number counts its characters. -/
inductive Modifier (r : Text) : Opener → Nat → Prop
  | inclusion (h : ['>'] <+: r) : Modifier r .inclusion 1
  | inclusionBlock (h : ['#', '>'] <+: r) : Modifier r .inclusionBlock 2
  | starredBlock (h : ['#', '*'] <+: r) : Modifier r .block 2
  | block (h : ['#'] <+: r) (hstar : ¬['#', '*'] <+: r) : Modifier r .block 1
  | close (h : ['/'] <+: r) : Modifier r .close 1
  | inverse (h : ['^'] <+: r) : Modifier r .inverse 1
  | chain {k : Nat} (h : chainWidth? r = some k) : Modifier r .chain k
  | unescaped (h : ['{'] <+: r) : Modifier r .unescaped 1
  | ampersand (h : ['&'] <+: r) : Modifier r .plain 1
  | starred (h : ['*'] <+: r) : Modifier r .plain 1
  | plain (h : ∀ c ∈ ['#', '&', '*', '{'], r.head? ≠ some c) : Modifier r .plain 0

/-- The delimiters of tags that a text can start with. -/
inductive Delimiter (cs : Text) : Reading → Prop
  | opener {front r : Text} {kind : Opener} {k : Nat} (hcs : cs = front ++ r)
      (hfront : Braces front r) (h : Modifier r kind k) :
      Delimiter cs (.token (.opener kind (cs.take (front.length + k))) (front.length + k))
  | elseTag {front r : Text} {k : Nat} (hcs : cs = front ++ r) (hfront : Braces front r)
      (h : elseTagWidth? r = some k) :
      Delimiter cs (.token (.elseTag (cs.take (front.length + k))) (front.length + k))
  | comment {front body : Text} {k : Nat} (hcs : cs = front ++ '!' :: body)
      (hfront : Braces front ('!' :: body)) (h : commentWidth? body = some k) :
      Delimiter cs (.token (.comment (cs.take (front.length + 1 + k))) (front.length + 1 + k))
  | unterminatedComment : Delimiter cs .unterminatedComment
  | unescapedCloser {k : Nat} (h : ['}', '}'] <+: cs.drop k) :
      Delimiter cs (.token (.unescapedCloser (cs.take (k + 2))) (k + 2))
  | closer {k : Nat} (h : ['}', '}'] <+: cs.drop k) :
      Delimiter cs (.token (.closer (cs.take (k + 2))) (k + 2))

/-- The readings that a text can start with. -/
inductive Shape (cs : Text) : Reading → Prop
  | delimiter {x : Reading} (h : Delimiter cs x) : Shape cs x
  | symbol {spelling : Text} {t : Token} (h : Symbol spelling t) (hstart : spelling <+: cs) :
      Shape cs (.token t spelling.length)
  | dot {r : Text} (hcs : cs = '.' :: r) (hdot : r.head? ≠ some '.')
      (hnext : boundary afterIdent false r = false) : Shape cs (.token (.separator .dot) 1)
  | string {quote : Char} {body r : Text} (hcs : cs = quote :: (body ++ quote :: r))
      (hquote : quote = '\x22' ∨ quote = '\x27') :
      Shape cs (.token (.string (unescapeQuote quote body)) (body.length + 2))
  | unterminatedString : Shape cs .unterminatedString
  | number {k : Nat} (h : numberWidth? cs = some k) : Shape cs (.token (.number (cs.take k)) k)
  | paramsOpen {space r : Text} (hcs : cs = ['a', 's'] ++ (space ++ '|' :: r))
      (hne : space ≠ []) (hspace : space.all isTagSpace = true) :
      Shape cs (.token .paramsOpen (space.length + 3))
  | ident {name r : Text} (hcs : cs = name ++ r) (hne : name ≠ [])
      (hname : name.all isIdent = true) : Shape cs (.token (.ident name) name.length)
  | bracketIdent {name r : Text} (hcs : cs = '[' :: (name ++ ']' :: r)) :
      Shape cs (.token (.ident (unescapeBracket ('[' :: (name ++ [']'])))) (name.length + 2))

/-! ## Alternatives -/

/-- Every reading of an alternative has a property. -/
def All (P : Reading → Prop) (r : Option Reading) : Prop := ∀ x, r = some x → P x

/-- What holds of two alternatives holds of their choice. -/
theorem All.orElse {P : Reading → Prop} {a b : Option Reading} (ha : All P a) (hb : All P b) :
    All P (a <|> b) := by
  intro x h
  cases a with
  | none => exact hb x (by simpa using h)
  | some y => exact ha x (by simpa using h)

/-- A weaker property holds of a reading. -/
theorem All.mono {P Q : Reading → Prop} {r : Option Reading} (h : All P r)
    (himp : ∀ {x}, P x → Q x) : All Q r := fun x hx => himp (h x hx)

/-- A symbol is read as it is spelled. -/
theorem shape_fixed {spelling : Text} {t : Token} (ht : Symbol spelling t) (cs : Text) :
    All (Shape cs) (fixed spelling t cs) := by
  intro x h
  simp only [fixed, Option.ite_none_right_eq_some, Option.some.injEq] at h
  obtain ⟨hstart, rfl⟩ := h
  exact .symbol ht (List.isPrefixOf_iff_prefix.mp hstart)

/-- A word is read as it is spelled, up to its boundary. -/
theorem shape_keyword {spelling : Text} {t : Token} (ht : Symbol spelling t) (square : Bool)
    (cs : Text) : All (Shape cs) (keyword spelling t square cs) := by
  intro x h
  simp only [keyword, Option.ite_none_right_eq_some, Option.some.injEq, Bool.and_eq_true] at h
  obtain ⟨⟨hstart, -⟩, rfl⟩ := h
  exact .symbol ht (List.isPrefixOf_iff_prefix.mp hstart)

/-! ## Delimiters -/

theorem tildeWidth_cons (c : Char) (r : Text) : tildeWidth (c :: r) = if c = '~' then 1 else 0 := by
  rw [tildeWidth.eq_def]
  split
  · next h => rw [if_pos (List.cons.inj h).1]
  · next hother => rw [if_neg fun hc => hother r (by rw [hc])]

/-- Two braces and all markers behind them are the front of a delimiter. -/
theorem exists_braces (r : Text) : ∃ front rest, '{' :: '{' :: r = front ++ rest ∧
    Braces front rest := by
  by_cases hr : r.head? = some '~'
  · obtain ⟨rest, rfl⟩ := List.head?_eq_some_iff.mp hr
    exact ⟨['{', '{', '~'], rest, rfl, .inr rfl⟩
  · exact ⟨['{', '{'], r, rfl, .inl ⟨rfl, hr⟩⟩

/-- What an opener is depends on what stands behind its braces. -/
theorem opener_braces {front r : Text} (h : Braces front r) :
    opener (front ++ r) = some (openerAt (front ++ r) front.length r) := by
  rcases h with ⟨rfl, hr⟩ | rfl
  · have htilde : tildeWidth r = 0 := by
      cases r with
      | nil => rfl
      | cons c r => rw [tildeWidth_cons, if_neg fun hc => hr (congrArg some hc)]
    simp only [opener, List.cons_append, List.nil_append, htilde]
    rfl
  · rfl

/-- One case for each branch of `openerAt`. -/
theorem delimiter_openerAt {cs front r : Text} (hcs : cs = front ++ r) (hfront : Braces front r) :
    Delimiter cs (openerAt cs front.length r) := by
  have opens {kind : Opener} {k : Nat} (h : Modifier r kind k) :
      Delimiter cs (.token (.opener kind (cs.take (front.length + k))) (front.length + k)) :=
    .opener hcs hfront h
  unfold openerAt
  simp only
  split
  · exact opens (.inclusion ⟨_, rfl⟩)
  · exact opens (.inclusionBlock ⟨_, rfl⟩)
  · exact opens (.starredBlock ⟨_, rfl⟩)
  · next hstar =>
      refine opens (.block ⟨_, rfl⟩ fun h => ?_)
      obtain ⟨tail, rfl⟩ := (List.cons_prefix_cons.mp h).2
      exact hstar tail rfl
  · exact opens (.close ⟨_, rfl⟩)
  · next hinclusion hinclusionBlock hstarred hblock hclose =>
      split
      · next h => exact .elseTag hcs hfront h
      · split
        · exact opens (.inverse ⟨_, rfl⟩)
        · next h => exact opens (.chain h)
        · exact opens (.unescaped ⟨_, rfl⟩)
        · exact opens (.ampersand ⟨_, rfl⟩)
        · split
          · next h => exact .comment hcs hfront h
          · exact .unterminatedComment
        · exact opens (.starred ⟨_, rfl⟩)
        · next hbrace hamp _ hstar _ _ =>
            refine opens (.plain fun c hc hhead => ?_)
            obtain ⟨tail, rfl⟩ := List.head?_eq_some_iff.mp hhead
            simp only [List.mem_cons, List.not_mem_nil, or_false] at hc
            rcases hc with rfl | rfl | rfl | rfl
            · exact hblock tail rfl
            · exact hamp tail rfl
            · exact hstar tail rfl
            · exact hbrace tail rfl

/-- Every opener is a delimiter with a modifier. -/
theorem delimiter_opener (cs : Text) : All (Delimiter cs) (opener cs) := by
  intro x h
  unfold opener at h
  split at h
  · next r =>
      obtain ⟨front, rest, hcs, hfront⟩ := exists_braces r
      have hopener := opener_braces hfront
      rw [← hcs] at hopener
      obtain rfl := Option.some.inj (hopener.symm.trans h)
      exact delimiter_openerAt hcs hfront
  · cases h

/-- Every closer is a delimiter that ends with two braces. -/
theorem delimiter_closer (cs : Text) : All (Delimiter cs) (closer cs) := by
  intro x h
  simp only [closer, Option.or_eq_some_iff] at h
  rcases h with h | ⟨-, h⟩
  · split at h
    · simp only [Option.ite_none_right_eq_some, Option.some.injEq] at h
      obtain ⟨hend, rfl⟩ := h
      exact .unescapedCloser (List.isPrefixOf_iff_prefix.mp hend)
    · cases h
  · simp only [Option.ite_none_right_eq_some, Option.some.injEq] at h
    obtain ⟨hend, rfl⟩ := h
    exact .closer (List.isPrefixOf_iff_prefix.mp hend)

/-! ## Paths -/

/-- Dots are a name. -/
theorem shape_dots (cs : Text) : All (Shape cs) (dots cs) := by
  intro x h
  unfold dots at h
  split at h
  · cases h
    exact .symbol .parent ⟨_, rfl⟩
  · next r hdots =>
      split at h
      · cases h
        exact .symbol .this ⟨_, rfl⟩
      · next hnext =>
          split at h
          · cases h
            exact .symbol .member ⟨_, rfl⟩
          · cases h
            refine .dot rfl (fun hhead => ?_) (Bool.eq_false_iff.mpr hnext)
            obtain ⟨tail, rfl⟩ := List.head?_eq_some_iff.mp hhead
            exact hdots tail rfl
  · cases h
    exact .symbol .slash ⟨_, rfl⟩
  · cases h

/-- A name is read up to its boundary. -/
theorem shape_ident (square : Bool) (cs : Text) : All (Shape cs) (ident square cs) := by
  intro x h
  simp only [ident, Option.ite_none_right_eq_some, Option.some.injEq, Bool.and_eq_true,
    Bool.not_eq_true', List.isEmpty_eq_false_iff] at h
  obtain ⟨⟨hne, -⟩, rfl⟩ := h
  exact .ident List.takeWhile_append_dropWhile.symm hne List.all_takeWhile

/-- The width of a name in brackets ends with the closing bracket. -/
theorem exists_of_bracketWidth? {cs : Text} {width : Nat} (h : bracketWidth? cs = some width) :
    ∃ name r, cs = name ++ ']' :: r ∧ width = name.length + 1 := by
  fun_induction bracketWidth? cs generalizing width with
  | case1 => cases h
  | case2 r =>
      cases h
      exact ⟨[], r, rfl, rfl⟩
  | case3 r ih =>
      obtain ⟨more, hmore, rfl⟩ := Option.map_eq_some_iff.mp h
      obtain ⟨name, rest, rfl, rfl⟩ := ih hmore
      exact ⟨'\\' :: ']' :: name, rest, rfl, rfl⟩
  | case4 c r _ _ ih =>
      obtain ⟨more, hmore, rfl⟩ := Option.map_eq_some_iff.mp h
      obtain ⟨name, rest, rfl, rfl⟩ := ih hmore
      exact ⟨c :: name, rest, rfl, rfl⟩

theorem take_bracketed (name r : Text) :
    ('[' :: (name ++ ']' :: r)).take (name.length + 2) = '[' :: (name ++ [']']) := by
  rw [List.take_succ_cons, List.take_length_add_append]
  rfl

/-- A name in brackets is read with its brackets. -/
theorem shape_bracketIdent (cs : Text) : All (Shape cs) (bracketIdent cs) := by
  intro x h
  unfold bracketIdent at h
  split at h
  · obtain ⟨width, hwidth, rfl⟩ := Option.map_eq_some_iff.mp h
    obtain ⟨name, r, rfl, rfl⟩ := exists_of_bracketWidth? hwidth
    rw [take_bracketed]
    exact .bracketIdent rfl
  · cases h

theorem shape_arrayDelimiter (square afterSeparator : Bool) (cs : Text) :
    All (Shape cs) (arrayDelimiter square afterSeparator cs) := by
  intro x h
  unfold arrayDelimiter at h
  split at h
  · simp only [Option.ite_none_right_eq_some, Option.some.injEq] at h
    obtain ⟨-, rfl⟩ := h
    exact .symbol .arrayOpen ⟨_, rfl⟩
  · simp only [Option.ite_none_right_eq_some, Option.some.injEq] at h
    obtain ⟨-, rfl⟩ := h
    exact .symbol .arrayClose ⟨_, rfl⟩
  · cases h

/-! ## Literals -/

/-- A quote stands at the given place. -/
def QuoteAt (quote : Char) (t : Text) (place : Nat) : Prop := ∃ r, t.drop place = quote :: r

/-- Where a string is closed, a quote stands. -/
theorem quoteAt_closingQuote? {quote : Char} {t : Text} {place : Nat}
    (h : closingQuote? quote t = some place) : QuoteAt quote t place := by
  fun_induction closingQuote? quote t generalizing place with
  | case1 => cases h
  | case2 =>
      cases h
      exact ⟨[], rfl⟩
  | case3 c hc => cases h
  | case4 c d r hescape ih =>
      obtain ⟨more, hmore, rfl⟩ := Option.map_eq_some_iff.mp h
      exact ih hmore
  | case5 d r hc =>
      cases h
      exact ⟨d :: r, rfl⟩
  | case6 c d r hescape hc ih =>
      obtain ⟨more, hmore, rfl⟩ := Option.map_eq_some_iff.mp h
      exact ih hmore

/-- The last escaped quote of a text is a quote. -/
theorem quoteAt_lastEscapedQuote? {quote : Char} {t : Text} {place : Nat}
    (h : lastEscapedQuote? quote t = some place) : QuoteAt quote t place := by
  fun_induction lastEscapedQuote? quote t generalizing place with
  | case1 => cases h
  | case2 c => cases h
  | case3 c d r hescape ih =>
      cases hmore : lastEscapedQuote? quote r with
      | none =>
          rw [hmore] at h
          cases h
          exact ⟨r, congrArg (· :: r) hescape.2⟩
      | some more =>
          rw [hmore] at h
          cases h
          exact ih hmore
  | case4 c d r hescape ih =>
      obtain ⟨more, hmore, rfl⟩ := Option.map_eq_some_iff.mp h
      exact ih hmore

/-- A string is read up to its quote. -/
theorem shape_quoted (cs : Text) : All (Shape cs) (quoted cs) := by
  intro x h
  unfold quoted at h
  split at h
  · next quote body =>
      simp only [Option.ite_none_right_eq_some, Option.some.injEq] at h
      obtain ⟨hquote, rfl⟩ := h
      split
      · next place hplace =>
          have hat : QuoteAt quote body place := by
            rcases Option.or_eq_some_iff.mp hplace with hplace | ⟨-, hplace⟩
            · exact quoteAt_closingQuote? hplace
            · exact quoteAt_lastEscapedQuote? hplace
          obtain ⟨r, hr⟩ := hat
          have hlen : (body.take place).length = place := by
            have hdrop := congrArg List.length hr
            rw [List.length_drop, List.length_cons] at hdrop
            rw [List.length_take]
            omega
          have hbody : body = body.take place ++ quote :: r := by
            rw [← hr, List.take_append_drop]
          rw [show place + 2 = (body.take place).length + 2 by rw [hlen]]
          exact .string (congrArg (List.cons quote) hbody) hquote
      · exact .unterminatedString
  · cases h

/-- A number is read up to its boundary. -/
theorem shape_number (square : Bool) (cs : Text) : All (Shape cs) (number square cs) := by
  intro x h
  unfold number at h
  split at h
  · next hwidth =>
      simp only [Option.ite_none_right_eq_some, Option.some.injEq] at h
      obtain ⟨-, rfl⟩ := h
      exact .number hwidth
  · cases h

/-- The start of block parameters is read with its bar. -/
theorem shape_blockParams (cs : Text) : All (Shape cs) (blockParams cs) := by
  intro x h
  unfold blockParams at h
  split at h
  · next r =>
      simp only [Option.ite_none_right_eq_some, Option.some.injEq] at h
      obtain ⟨⟨hspace, hbar⟩, rfl⟩ := h
      obtain ⟨rest, hrest⟩ := List.head?_eq_some_iff.mp hbar
      have htake := List.prefix_iff_eq_take.mp (List.takeWhile_prefix isTagSpace (l := r))
      have hr : r = r.takeWhile isTagSpace ++ '|' :: rest := by
        rw [← hrest, htake]
        exact (List.take_append_drop _ r).symm
      exact .paramsOpen (congrArg (['a', 's'] ++ ·) hr)
        (fun hnil => hspace (congrArg List.length hnil)) List.all_takeWhile
  · cases h

/-! ## All tokens -/

/-- **Every reading inside a tag has a shape.** -/
theorem shape_readToken (square afterSeparator : Bool) (cs : Text) :
    All (Shape cs) (readToken square afterSeparator cs) := by
  unfold readToken
  refine All.orElse (shape_fixed .rawOpener cs) ?_
  refine All.orElse (shape_fixed .rawCloser cs) ?_
  refine All.orElse ((delimiter_opener cs).mono .delimiter) ?_
  refine All.orElse ((delimiter_closer cs).mono .delimiter) ?_
  refine All.orElse (shape_fixed .parenOpen cs) ?_
  refine All.orElse (shape_fixed .parenClose cs) ?_
  refine All.orElse (shape_fixed .equals cs) ?_
  refine All.orElse (shape_dots cs) ?_
  refine All.orElse (shape_quoted cs) ?_
  refine All.orElse (shape_fixed .data cs) ?_
  refine All.orElse (shape_keyword .yes square cs) ?_
  refine All.orElse (shape_keyword .no square cs) ?_
  refine All.orElse (shape_keyword .undefined square cs) ?_
  refine All.orElse (shape_keyword .null square cs) ?_
  refine All.orElse (shape_number square cs) ?_
  refine All.orElse (shape_blockParams cs) ?_
  refine All.orElse (shape_fixed .paramsClose cs) ?_
  refine All.orElse (shape_arrayDelimiter square afterSeparator cs) ?_
  exact All.orElse (shape_ident square cs) (shape_bracketIdent cs)

/-! ## Every token has a character -/

/-- The reading is not a token of no characters. -/
def Proper : Reading → Prop
  | .token _ width => 0 < width
  | _ => True

/-- Every reading of an alternative is proper. -/
abbrev AllProper : Option Reading → Prop := All Proper

/-- A symbol has a character. -/
theorem Symbol.length_pos {spelling : Text} {t : Token} (h : Symbol spelling t) :
    0 < spelling.length := by
  cases h <;> exact Nat.succ_pos _

/-- A delimiter has two braces at least. -/
theorem Braces.two_le {front r : Text} (h : Braces front r) : 2 ≤ front.length := by
  rcases h with ⟨rfl, -⟩ | rfl <;> decide

/-- A number has a digit. -/
theorem numberWidth?_pos {cs : Text} {width : Nat} (h : numberWidth? cs = some width) :
    0 < width := by
  simp only [numberWidth?, Option.ite_none_left_eq_some, Option.some.injEq] at h
  omega

theorem Delimiter.proper {cs : Text} {x : Reading} (h : Delimiter cs x) : x.Proper := by
  cases h with
  | opener _ hfront | elseTag _ hfront =>
      exact Nat.add_pos_left (Nat.lt_of_lt_of_le (by decide) hfront.two_le) _
  | comment => exact Nat.add_pos_left (Nat.succ_pos _) _
  | unterminatedComment => trivial
  | unescapedCloser | closer => exact Nat.succ_pos _

/-- Every token has a character. -/
theorem Shape.proper {cs : Text} {x : Reading} (h : Shape cs x) : x.Proper := by
  cases h with
  | delimiter h => exact h.proper
  | symbol h => exact h.length_pos
  | number h => exact numberWidth?_pos h
  | ident _ hne => exact List.length_pos_iff.mpr hne
  | unterminatedString => trivial
  | dot | string | paramsOpen | bracketIdent => exact Nat.succ_pos _

/-- A token has at least one character. -/
theorem allProper_readToken (square afterSeparator : Bool) (cs : Text) :
    AllProper (readToken square afterSeparator cs) :=
  (shape_readToken square afterSeparator cs).mono Shape.proper

end Reading
end Stache
