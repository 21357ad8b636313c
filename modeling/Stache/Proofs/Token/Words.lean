import Stache.Proofs.Text.EndsWith
import Stache.Token.Reading

/-!
# Words

A word is a run of identifier characters that is no keyword and no number.  In a path, in front of
a separator or of the end of the tag, it is read as one identifier (`readToken_word`).

Keywords and numbers are tried before identifiers.  None of them applies to a word: what they
match is a proper part of it, and the character behind that part is no boundary.
-/

namespace Stache

/-- The words that stand for values. -/
def Text.keywords : List Text :=
  [['t', 'r', 'u', 'e'], ['f', 'a', 'l', 's', 'e'],
    ['u', 'n', 'd', 'e', 'f', 'i', 'n', 'e', 'd'], ['n', 'u', 'l', 'l']]

/-- Digits, perhaps with a sign.  A number may go on with a point, which no word holds. -/
def Text.isNumeral : Text → Bool
  | '-' :: digits => !digits.isEmpty && digits.all Char.isDigit
  | digits => !digits.isEmpty && digits.all Char.isDigit

/-- A run of identifier characters that spells neither a keyword nor a number. -/
structure Text.IsWord (w : Text) : Prop where
  ne_nil : w ≠ []
  ident : ∀ c ∈ w, Reading.isIdent c = true
  keyword : w ∉ keywords
  numeral : w.isNumeral = false

instance (w : Text) : Decidable w.IsWord :=
  decidable_of_iff
    (w ≠ [] ∧ w.all Reading.isIdent = true ∧ w ∉ Text.keywords ∧ w.isNumeral = false)
    ⟨fun ⟨hne, hident, hkeyword, hnumeral⟩ =>
        ⟨hne, List.all_eq_true.mp hident, hkeyword, hnumeral⟩,
      fun h => ⟨h.ne_nil, List.all_eq_true.mpr h.ident, h.keyword, h.numeral⟩⟩

namespace Reading

variable {square : Bool} {c d : Char} {r w rest u : Text}

/-- The text goes on with a separator or with the end of the tag. -/
def EndsWord (rest : Text) : Prop := ∃ c r, rest = c :: r ∧ c ∈ ['.', '/', '}']

/-- A character of a word has no meaning of its own in a tag. -/
theorem not_reserved (h : isIdent c = true) : c ∉ reserved := by
  rw [isIdent, Bool.not_eq_true', Bool.or_eq_false_iff] at h
  intro hmem
  rw [List.contains_iff_mem.mpr hmem] at h
  cases h.2

theorem ne_of_isIdent (h : isIdent c = true) (hd : d ∈ reserved) : c ≠ d := by
  rintro rfl
  exact not_reserved h hd

/-- A character of a word is no boundary behind one. -/
theorem boundary_of_isIdent {allowed : Text} (h : isIdent c = true)
    (hallowed : allowed ⊆ reserved) : boundary allowed square (c :: r) = false := by
  have hmem : c ∉ allowed := fun hmem => not_reserved h (hallowed hmem)
  have hbracket : c ≠ ']' := ne_of_isIdent h (by decide)
  rw [isIdent, Bool.not_eq_true', Bool.or_eq_false_iff] at h
  simp [boundary, h.1, hmem, hbracket]

theorem isTagSpace_of_isIdent (h : isIdent c = true) : isTagSpace c = false := by
  refine Bool.eq_false_iff.mpr fun hspace => ?_
  rw [isIdent, isSpace_of_isTagSpace hspace] at h
  cases h

/-! ## Behind a word -/

/-- What ends a word does not go on with it. -/
theorem EndsWord.not_isIdent (h : EndsWord rest) : ∀ c ∈ rest.head?, isIdent c = false := by
  obtain ⟨c, r, rfl, hc⟩ := h
  intro d hd
  obtain rfl := Option.some.inj hd
  simp only [List.mem_cons, List.not_mem_nil, or_false] at hc
  rcases hc with rfl | rfl | rfl <;> decide

/-- What ends a word is a boundary behind it. -/
theorem EndsWord.boundary (h : EndsWord rest) : boundary afterIdent square rest = true := by
  obtain ⟨c, r, rfl, hc⟩ := h
  simp only [List.mem_cons, List.not_mem_nil, or_false] at hc
  rcases hc with rfl | rfl | rfl <;> rfl

/-- What starts the text and does not hold the character behind the word is a part of the word. -/
theorem exists_of_isPrefix (h : u <+: w ++ c :: r) (hu : c ∉ u) : ∃ v, w = u ++ v := by
  obtain ⟨k, hk⟩ := h
  rcases List.append_eq_append_iff.mp hk with ⟨v, rfl, -⟩ | ⟨v, rfl, hv⟩
  · exact ⟨v, rfl⟩
  · cases v with
    | nil => exact ⟨[], by rw [List.append_nil, List.append_nil]⟩
    | cons d v =>
        obtain ⟨rfl, -⟩ := List.cons.inj hv
        exact absurd (by simp) hu

/-- The text behind a part of a word starts with a character of the word or ends it. -/
theorem boundary_behind {v : Text} (hv : ∀ c ∈ v, isIdent c = true) (hne : v ≠ []) :
    boundary afterLiteral square (v ++ rest) = false := by
  obtain ⟨c, v, rfl⟩ := List.exists_cons_of_ne_nil hne
  exact boundary_of_isIdent (hv c List.mem_cons_self) (by decide)

/-! ## What does not apply to a word -/

/-- A symbol is told by its first character. -/
theorem fixed_eq_none {t : Token} (h : c ≠ d) : fixed (d :: u) t (c :: r) = none := by
  rw [fixed, if_neg]
  rw [List.isPrefixOf, beq_eq_false_iff_ne.mpr h.symm]
  exact Bool.false_ne_true

theorem opener_eq_none (h : c ≠ '{') : opener (c :: r) = none := by
  unfold opener
  split
  · next heq => exact absurd (List.cons.inj heq).1 h
  · rfl

theorem closer_eq_none (h : c ≠ '}') (htilde : c ≠ '~') : closer (c :: r) = none := by
  have hwidth : tildeWidth (c :: r) = 0 := by
    unfold tildeWidth
    split
    · next heq => exact absurd (List.cons.inj heq).1 htilde
    · rfl
  have hbraces : ['}', '}'].isPrefixOf (c :: r) = false := by
    rw [List.isPrefixOf, beq_eq_false_iff_ne.mpr h.symm, Bool.false_and]
  unfold closer
  split
  · next heq => exact absurd (List.cons.inj heq).1 h
  · simp [hwidth, hbraces]

/-- Dots start with a dot or a slash. -/
theorem dots_eq_none (hdot : c ≠ '.') (hslash : c ≠ '/') : dots (c :: r) = none := by
  unfold dots
  split
  · next heq => exact absurd (List.cons.inj heq).1 hdot
  · next heq => exact absurd (List.cons.inj heq).1 hdot
  · next heq => exact absurd (List.cons.inj heq).1 hslash
  · rfl

theorem quoted_eq_none (h : c ≠ '\x22') (h' : c ≠ '\x27') : quoted (c :: r) = none := by
  simp [quoted, h, h']

theorem arrayDelimiter_eq_none {after : Bool} (h : c ≠ '[') (h' : c ≠ ']') :
    arrayDelimiter square after (c :: r) = none := by
  unfold arrayDelimiter
  split
  · next heq => exact absurd (List.cons.inj heq).1 h
  · next heq => exact absurd (List.cons.inj heq).1 h'
  · rfl

/-- A name in brackets starts with a bracket. -/
theorem bracketIdent_eq_none (h : c ≠ '[') : bracketIdent (c :: r) = none := by
  unfold bracketIdent
  split
  · next heq => exact absurd (List.cons.inj heq).1 h
  · rfl

/-- Keywords are words. -/
theorem isIdent_of_mem_keywords {spelling : Text} (h : spelling ∈ Text.keywords) :
    ∀ c ∈ spelling, isIdent c = true := by
  have hall : Text.keywords.all (fun w => w.all isIdent) = true := by decide
  exact List.all_eq_true.mp (List.all_eq_true.mp hall spelling h)

/-- A keyword could only be a part of the word.  It does not apply if no boundary stands behind
that part. -/
theorem keyword_eq_none {spelling : Text} {t : Token} (hmem : spelling ∈ Text.keywords)
    (hc : isIdent c = false)
    (hbehind : ∀ v, w = spelling ++ v → boundary afterLiteral square (v ++ c :: r) = false) :
    keyword spelling t square (w ++ c :: r) = none := by
  have hspelling : c ∉ spelling := fun hin => by
    rw [isIdent_of_mem_keywords hmem c hin] at hc
    cases hc
  rw [keyword, if_neg]
  rw [Bool.and_eq_true_iff]
  rintro ⟨hstart, hboundary⟩
  obtain ⟨v, rfl⟩ := exists_of_isPrefix (List.isPrefixOf_iff_prefix.mp hstart) hspelling
  rw [List.append_assoc, List.drop_left, hbehind v rfl] at hboundary
  cases hboundary

/-! ## Numbers -/

theorem isIdent_of_isDigit (h : c.isDigit = true) : isIdent c = true := by
  have hspace : isSpace c = false := by
    refine Bool.eq_false_iff.mpr fun hspace => ?_
    have hrange : 48 ≤ c.toNat ∧ c.toNat ≤ 57 := by
      simp only [Char.isDigit, Bool.and_eq_true, decide_eq_true_eq] at h
      exact ⟨h.1, h.2⟩
    simp only [isSpace, Bool.or_eq_true, Bool.and_eq_true, decide_eq_true_eq, beq_iff_eq] at hspace
    omega
  have hdigits : reserved.all (fun d => !d.isDigit) = true := by decide
  rw [isIdent, hspace, Bool.false_or, Bool.not_eq_true']
  refine Bool.eq_false_iff.mpr fun hmem => ?_
  have hnone := List.all_eq_true.mp hdigits c (List.contains_iff_mem.mp hmem)
  rw [h] at hnone
  cases hnone

/-- Numerals are words, be it with a sign. -/
theorem isIdent_of_isNumeral (h : Text.isNumeral u = true) : ∀ c ∈ u, isIdent c = true := by
  unfold Text.isNumeral at h
  split at h
  · next digits =>
      have hdigits := List.all_eq_true.mp (Bool.and_eq_true_iff.mp h).2
      exact List.forall_mem_cons.mpr ⟨by decide, fun c hc => isIdent_of_isDigit (hdigits c hc)⟩
  · exact fun c hc =>
      isIdent_of_isDigit (List.all_eq_true.mp (Bool.and_eq_true_iff.mp h).2 c hc)

theorem ne_nil_of_isNumeral (h : Text.isNumeral u = true) : u ≠ [] := by
  rintro rfl
  cases h

/-- No keyword is a numeral. -/
theorem not_keyword_of_isNumeral (h : Text.isNumeral u = true) : u ∉ Text.keywords := by
  have hkeywords : Text.keywords.all (fun w => !Text.isNumeral w) = true := by decide
  intro hmem
  have hnone := List.all_eq_true.mp hkeywords u hmem
  rw [h] at hnone
  cases hnone

/-- Digits are a numeral, be it with a sign. -/
theorem isNumeral_digits {digits : Text} (hne : digits ≠ []) (h : digits.all Char.isDigit = true) :
    Text.isNumeral digits = true ∧ Text.isNumeral ('-' :: digits) = true := by
  have hdigits : (!digits.isEmpty && digits.all Char.isDigit) = true := by
    rw [List.isEmpty_eq_false_iff.mpr hne, h]
    rfl
  refine ⟨?_, hdigits⟩
  unfold Text.isNumeral
  split
  · cases (Bool.and_eq_true_iff.mp h).1
  · exact hdigits

/-- A number starts with digits, perhaps with a sign in front of them. -/
theorem exists_of_numberWidth? {cs : Text} {width : Nat} (h : numberWidth? cs = some width) :
    ∃ front tail : Text, cs = front ++ tail ∧ front.isNumeral = true ∧
      width = front.length + fractionWidth tail := by
  simp only [numberWidth?, Option.ite_none_left_eq_some, Option.some.injEq] at h
  obtain ⟨hne, rfl⟩ := h
  by_cases hminus : cs.head? = some '-'
  · obtain ⟨r, rfl⟩ := List.head?_eq_some_iff.mp hminus
    simp only [hminus, if_true, List.drop_succ_cons, List.drop_zero] at hne ⊢
    have hnil : r.takeWhile Char.isDigit ≠ [] :=
      List.ne_nil_of_length_pos (Nat.pos_of_ne_zero hne)
    refine ⟨'-' :: r.takeWhile Char.isDigit, r.dropWhile Char.isDigit,
      congrArg (List.cons '-') List.takeWhile_append_dropWhile.symm,
      (isNumeral_digits hnil List.all_takeWhile).2, ?_⟩
    rw [Nat.add_comm 1, List.drop_succ_cons, Text.drop_takeWhile, List.length_cons]
  · simp only [if_neg hminus, List.drop_zero, Nat.zero_add] at hne ⊢
    have hnil : cs.takeWhile Char.isDigit ≠ [] :=
      List.ne_nil_of_length_pos (Nat.pos_of_ne_zero hne)
    refine ⟨cs.takeWhile Char.isDigit, cs.dropWhile Char.isDigit,
      List.takeWhile_append_dropWhile.symm, (isNumeral_digits hnil List.all_takeWhile).1, ?_⟩
    rw [Text.drop_takeWhile]

/-- Without a point there is no fraction. -/
theorem fractionWidth_of_ne {cs : Text} (h : cs.head? ≠ some '.') : fractionWidth cs = 0 := by
  unfold fractionWidth
  split
  · exact absurd rfl h
  · rfl

/-- The sign and the digits of a number could only be a part of the word.  It does not apply if no
boundary stands behind that part and the fraction there. -/
theorem number_eq_none (hc : isIdent c = false)
    (hbehind : ∀ front v, w = front ++ v → front.isNumeral = true →
      boundary afterLiteral square
        ((v ++ c :: r).drop (fractionWidth (v ++ c :: r))) = false) :
    number square (w ++ c :: r) = none := by
  unfold number
  split
  · next width hwidth =>
      obtain ⟨front, tail, hcs, hnumeral, rfl⟩ := exists_of_numberWidth? hwidth
      have hfront : c ∉ front := fun hmem => by
        rw [isIdent_of_isNumeral hnumeral c hmem] at hc
        cases hc
      obtain ⟨v, rfl⟩ := exists_of_isPrefix ⟨tail, hcs.symm⟩ hfront
      rw [List.append_assoc] at hcs
      obtain rfl := List.append_cancel_left hcs
      rw [List.append_assoc, ← List.drop_drop, List.drop_left, if_neg]
      rw [hbehind front v rfl hnumeral]
      exact Bool.false_ne_true
  · rfl

/-! ## The names of a block -/

/-- Behind a word there must be white space in front of a bar. -/
theorem blockParams_word_eq_none (hw : ∀ c ∈ w, isIdent c = true) (hc : isIdent c = false)
    (hspace : isTagSpace c = false) : blockParams (w ++ c :: r) = none := by
  have hstop : c ∉ ['a', 's'] := by
    rintro (_ | ⟨_, _ | ⟨_, ⟨⟩⟩⟩) <;> cases hc
  unfold blockParams
  split
  · next rest heq =>
      obtain ⟨v, rfl⟩ := exists_of_isPrefix (u := ['a', 's']) ⟨rest, heq.symm⟩ hstop
      obtain rfl : v ++ c :: r = rest := by simpa using heq
      have hwidth : spaceWidth (v ++ c :: r) = 0 := by
        cases v with
        | nil =>
            rw [spaceWidth, List.nil_append, List.takeWhile_cons, hspace]
            rfl
        | cons d v =>
            rw [spaceWidth, List.cons_append, List.takeWhile_cons,
              isTagSpace_of_isIdent (hw d (by simp))]
            rfl
      simp [hwidth]
  · rfl

/-! ## What reads a word -/

/-- A word is read as a name, up to what ends it. -/
theorem ident_word (hne : w ≠ []) (hw : ∀ c ∈ w, isIdent c = true) (hrest : EndsWord rest) :
    ident square (w ++ rest) = some (.token (.ident w) w.length) := by
  have hstop : rest.takeWhile isIdent = [] ∧ rest.dropWhile isIdent = rest := by
    have hhead := hrest.not_isIdent
    obtain ⟨c, r, rfl, -⟩ := hrest
    have hc : isIdent c = false := hhead c rfl
    rw [List.takeWhile_cons, List.dropWhile_cons, hc]
    exact ⟨rfl, rfl⟩
  have hname : w.isEmpty = false := List.isEmpty_eq_false_iff.mpr hne
  rw [ident, List.takeWhile_append_of_pos hw, List.dropWhile_append_of_pos hw, hstop.1,
    hstop.2, List.append_nil]
  simp [hname, hrest.boundary]

/-- Only keywords, numbers, the names of a block and identifiers start with a character of an
identifier. -/
theorem readToken_of_isIdent {after : Bool} (h : isIdent c = true) :
    readToken square after (c :: r) =
      (keyword ['t', 'r', 'u', 'e'] (.boolean true) square (c :: r)
        <|> keyword ['f', 'a', 'l', 's', 'e'] (.boolean false) square (c :: r)
        <|> keyword ['u', 'n', 'd', 'e', 'f', 'i', 'n', 'e', 'd'] .undefined square (c :: r)
        <|> keyword ['n', 'u', 'l', 'l'] .null square (c :: r)
        <|> number square (c :: r)
        <|> blockParams (c :: r)
        <|> ident square (c :: r)) := by
  have hc : ∀ d ∈ reserved, c ≠ d := fun d hd => ne_of_isIdent h hd
  have hlast : (ident square (c :: r) <|> bracketIdent (c :: r)) = ident square (c :: r) := by
    rw [bracketIdent_eq_none (hc _ (by decide))]
    cases ident square (c :: r) <;> rfl
  rw [readToken, fixed_eq_none (hc _ (by decide)), fixed_eq_none (hc _ (by decide)),
    opener_eq_none (hc _ (by decide)), closer_eq_none (hc _ (by decide)) (hc _ (by decide)),
    fixed_eq_none (hc _ (by decide)), fixed_eq_none (hc _ (by decide)),
    fixed_eq_none (hc _ (by decide)), dots_eq_none (hc _ (by decide)) (hc _ (by decide)),
    quoted_eq_none (hc _ (by decide)) (hc _ (by decide)), fixed_eq_none (hc _ (by decide)),
    fixed_eq_none (hc _ (by decide)),
    arrayDelimiter_eq_none (hc _ (by decide)) (hc _ (by decide)), hlast]
  rfl

/-- A run of identifier characters is read as an identifier if no keyword and no number applies. -/
theorem readToken_run {after : Bool} (hne : w ≠ []) (hw : ∀ c ∈ w, isIdent c = true)
    (hkeyword : w ∉ Text.keywords) (hnumber : number square (w ++ rest) = none)
    (hrest : EndsWord rest) :
    readToken square after (w ++ rest) = some (.token (.ident w) w.length) := by
  have hword : ident square (w ++ rest) = some (.token (.ident w) w.length) :=
    ident_word hne hw hrest
  obtain ⟨stop, r, rfl, hstop⟩ := hrest
  obtain ⟨hident, hspace⟩ : isIdent stop = false ∧ isTagSpace stop = false := by
    simp only [List.mem_cons, List.not_mem_nil, or_false] at hstop
    rcases hstop with rfl | rfl | rfl <;> decide
  have hnone {spelling : Text} {t : Token} (hmem : spelling ∈ Text.keywords) :
      keyword spelling t square (w ++ stop :: r) = none := by
    refine keyword_eq_none hmem hident fun v hv => boundary_behind (fun c hc => ?_) ?_
    · exact hw c (hv ▸ List.mem_append_right _ hc)
    · rintro rfl
      exact hkeyword (by rwa [hv, List.append_nil])
  have hparams : blockParams (w ++ stop :: r) = none := blockParams_word_eq_none hw hident hspace
  obtain ⟨c, v, rfl⟩ := List.exists_cons_of_ne_nil hne
  rw [List.cons_append] at *
  rw [readToken_of_isIdent (hw c List.mem_cons_self), hnone (by decide), hnone (by decide),
    hnone (by decide), hnone (by decide), hnumber, hparams, hword]
  rfl

/-- A word that is no numeral is not read as a number. -/
theorem number_word_eq_none (h : w.IsWord) (hrest : EndsWord rest) :
    number square (w ++ rest) = none := by
  have hident := hrest.not_isIdent
  obtain ⟨c, r, rfl, -⟩ := hrest
  refine number_eq_none (hident c rfl) fun front v hw hnumeral => ?_
  have hv : ∀ c ∈ v, isIdent c = true := fun c hc =>
    h.ident c (hw ▸ List.mem_append_right _ hc)
  cases v with
  | nil =>
      have hword := h.numeral
      rw [hw, List.append_nil, hnumeral] at hword
      cases hword
  | cons d v =>
      have hd := hv d List.mem_cons_self
      rw [fractionWidth_of_ne (by simpa using ne_of_isIdent hd (by decide)), List.drop_zero]
      exact boundary_of_isIdent hd (by decide)

/-- **A word is read as an identifier** in front of a separator or of the end of the tag. -/
theorem readToken_word {after : Bool} (h : w.IsWord) (hrest : EndsWord rest) :
    readToken square after (w ++ rest) = some (.token (.ident w) w.length) :=
  readToken_run h.ne_nil h.ident h.keyword (number_word_eq_none h hrest) hrest

end Reading
end Stache
