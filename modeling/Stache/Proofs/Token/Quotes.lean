import Stache.Proofs.Token.PathText

/-!
# Strings in quotes

Any text can be written in either quote: a backslash goes in front of every quote in it
(`Text.inQuotes`).  Three walks read what is written.  One looks for the first quote that no
backslash escapes, one for the last quote that a backslash does escape, and one drops the
backslashes again.  All of them take a backslash together with what stands behind it only if that is
a quote.  So they agree on the quotes of the text, whatever other backslashes stand around them.

A text that ends in a backslash takes the quote that should close it for one of its own.  If no
other quote follows, this is the last one with a backslash in front, and it closes the string all
the same (`closingPlace_backslashed`).
-/

namespace Stache

/-- A character as it is written in quotes. -/
def quotedChar (quote c : Char) : Text := if c = quote then ['\\', c] else [c]

namespace Text

/-- A text with a backslash in front of every quote. -/
def backslashed (quote : Char) (s : Text) : Text := s.flatMap (quotedChar quote)

/-- A text as it is written in quotes. -/
def inQuotes (quote : Char) (s : Text) : Text := quote :: (s.backslashed quote ++ [quote])

end Text

/-- The template `{{f "text"}}`, in either quote. -/
def quotedTemplate (quote : Char) (s : Text) : Text :=
  ['{', '{', 'f', ' '] ++ (s.inQuotes quote ++ ['}', '}'])

namespace Reading

open Text

variable {quote c : Char} {s rest : Text} {place : Nat}

/-- Backslashes are added character by character. -/
theorem backslashed_cons (quote c : Char) (s : Text) :
    backslashed quote (c :: s) = quotedChar quote c ++ backslashed quote s := List.flatMap_cons

theorem backslashed_concat (quote c : Char) (s : Text) :
    backslashed quote (s ++ [c]) = backslashed quote s ++ quotedChar quote c := by
  rw [backslashed, List.flatMap_append, List.flatMap_singleton]
  rfl

theorem quotedChar_self (quote : Char) : quotedChar quote quote = ['\\', quote] := if_pos rfl

theorem quotedChar_of_ne (h : c ≠ quote) : quotedChar quote c = [c] := if_neg h

/-- What is written for a character does not start with a quote. -/
theorem head?_quotedChar_append (hquote : quote ≠ '\\') (c : Char) (rest : Text) :
    (quotedChar quote c ++ rest).head? ≠ some quote := by
  by_cases hc : c = quote
  · rw [hc, quotedChar_self]
    exact fun heq => hquote (Option.some.inj heq).symm
  · rw [quotedChar_of_ne hc]
    exact fun heq => hc (Option.some.inj heq)

/-- A text with backslashes does not start with the quote. -/
theorem head?_backslashed_append (hquote : quote ≠ '\\') (s : Text)
    (h : rest.head? ≠ some quote) : (backslashed quote s ++ rest).head? ≠ some quote := by
  cases s with
  | nil => exact h
  | cons c s =>
      rw [backslashed_cons, List.append_assoc]
      exact head?_quotedChar_append hquote c _

/-! ## The walk that drops the backslashes -/

/-- A character that escapes no quote stays. -/
theorem unescapeQuote_cons (h : c = '\\' → rest.head? ≠ some quote) :
    unescapeQuote quote (c :: rest) = c :: unescapeQuote quote rest := by
  cases rest with
  | nil => rfl
  | cons d r =>
      rw [unescapeQuote, if_neg]
      rintro ⟨hc, rfl⟩
      exact h hc rfl

/-- A character loses the backslash that it was given. -/
theorem unescapeQuote_quotedChar (c : Char) (h : rest.head? ≠ some quote) :
    unescapeQuote quote (quotedChar quote c ++ rest) = c :: unescapeQuote quote rest := by
  by_cases hc : c = quote
  · rw [hc, quotedChar_self]
    exact if_pos ⟨rfl, rfl⟩
  · rw [quotedChar_of_ne hc]
    exact unescapeQuote_cons fun _ => h

/-- The text is given back. -/
theorem unescapeQuote_backslashed (hquote : quote ≠ '\\') (s : Text) :
    unescapeQuote quote (backslashed quote s) = s := by
  induction s with
  | nil => rfl
  | cons c s ih =>
      have hrest : (backslashed quote s).head? ≠ some quote := by
        rw [← List.append_nil (backslashed quote s)]
        exact head?_backslashed_append hquote s nofun
      rw [backslashed_cons, unescapeQuote_quotedChar c hrest, ih]

/-! ## The walk to the first plain quote -/

/-- A character that escapes no quote is passed. -/
theorem closingQuote?_cons (hc : c ≠ quote) (h : c = '\\' → rest.head? ≠ some quote) :
    closingQuote? quote (c :: rest) = (closingQuote? quote rest).map (· + 1) := by
  cases rest with
  | nil => exact if_neg hc
  | cons d r =>
      rw [closingQuote?, if_neg, if_neg hc]
      rintro ⟨hslash, rfl⟩
      exact h hslash rfl

/-- A character with its backslash is passed. -/
theorem closingQuote?_quotedChar (c : Char) (h : rest.head? ≠ some quote) :
    closingQuote? quote (quotedChar quote c ++ rest) =
      (closingQuote? quote rest).map (· + (quotedChar quote c).length) := by
  by_cases hc : c = quote
  · rw [hc, quotedChar_self]
    exact if_pos ⟨rfl, rfl⟩
  · rw [quotedChar_of_ne hc]
    exact closingQuote?_cons hc fun _ => h

/-- A text with backslashes is passed as a whole. -/
theorem closingQuote?_backslashed (hquote : quote ≠ '\\') (s : Text)
    (h : rest.head? ≠ some quote) : closingQuote? quote (backslashed quote s ++ rest) =
      (closingQuote? quote rest).map (· + (backslashed quote s).length) := by
  induction s with
  | nil => exact (Option.map_id' ..).symm
  | cons c s ih =>
      rw [backslashed_cons, List.append_assoc,
        closingQuote?_quotedChar c (head?_backslashed_append hquote s h), ih, Option.map_map,
        List.length_append, Nat.add_comm (quotedChar quote c).length]
      exact congrArg (Option.map · _) (funext fun n => Nat.add_assoc n _ _)

/-- A quote that no backslash stands in front of closes. -/
theorem closingQuote?_self (hquote : quote ≠ '\\') (rest : Text) :
    closingQuote? quote (quote :: rest) = some 0 := by
  cases rest with
  | nil => exact if_pos rfl
  | cons d r => rw [closingQuote?, if_neg fun h => hquote h.1, if_pos rfl]

/-- Where there is no quote, no string is closed. -/
theorem closingQuote?_of_not_mem (h : quote ∉ rest) : closingQuote? quote rest = none := by
  rw [Option.eq_none_iff_forall_ne_some]
  intro place hplace
  obtain ⟨r, hr⟩ := quoteAt_closingQuote? hplace
  exact h ((List.drop_suffix place rest).mem (hr ▸ List.mem_cons_self))

/-! ## The walk to the last escaped quote -/

/-- Behind another character the last escaped quote is still the last one. -/
theorem lastEscapedQuote?_quotedChar (c : Char) (h : rest.head? ≠ some quote)
    (hrest : lastEscapedQuote? quote rest = some place) :
    lastEscapedQuote? quote (quotedChar quote c ++ rest) =
      some (place + (quotedChar quote c).length) := by
  by_cases hc : c = quote
  · rw [hc, quotedChar_self]
    show lastEscapedQuote? quote ('\\' :: quote :: rest) = some (place + 2)
    rw [lastEscapedQuote?, if_pos ⟨rfl, rfl⟩, hrest]
  · rw [quotedChar_of_ne hc]
    cases rest with
    | nil => cases hrest
    | cons d r =>
        show lastEscapedQuote? quote (c :: d :: r) = some (place + 1)
        rw [lastEscapedQuote?, if_neg, hrest, Option.map_some]
        rintro ⟨-, rfl⟩
        exact h rfl

theorem lastEscapedQuote?_backslashed (hquote : quote ≠ '\\') (s : Text)
    (h : rest.head? ≠ some quote) (hrest : lastEscapedQuote? quote rest = some place) :
    lastEscapedQuote? quote (backslashed quote s ++ rest) =
      some (place + (backslashed quote s).length) := by
  induction s with
  | nil => exact hrest
  | cons c s ih =>
      rw [backslashed_cons, List.append_assoc,
        lastEscapedQuote?_quotedChar c (head?_backslashed_append hquote s h) ih,
        List.length_append]
      exact congrArg some (by omega)

/-- Where there is no quote, none is escaped. -/
theorem lastEscapedQuote?_of_not_mem (h : quote ∉ rest) :
    lastEscapedQuote? quote rest = none := by
  rw [Option.eq_none_iff_forall_ne_some]
  intro place hplace
  obtain ⟨r, hr⟩ := quoteAt_lastEscapedQuote? hplace
  exact h ((List.drop_suffix place rest).mem (hr ▸ List.mem_cons_self))

/-! ## The token -/

/-- **The quote behind a text closes it.**  If the text ends in a backslash, this is so as long as
no other quote follows. -/
theorem closingPlace_backslashed (hquote : quote ≠ '\\')
    (h : s.getLast? = some '\\' → quote ∉ rest) :
    (closingQuote? quote (backslashed quote s ++ quote :: rest)).or
      (lastEscapedQuote? quote (backslashed quote s ++ quote :: rest)) =
        some (backslashed quote s).length := by
  rcases List.eq_nil_or_concat s with rfl | ⟨front, c, rfl⟩
  · exact congrArg (Option.or · _) (closingQuote?_self hquote rest)
  · rw [List.concat_eq_append] at h ⊢
    have hfront := head?_quotedChar_append hquote c (quote :: rest)
    rw [backslashed_concat, List.append_assoc, closingQuote?_backslashed hquote front hfront,
      List.length_append]
    by_cases hslash : c = '\\'
    · subst hslash
      have hnone := h (List.getLast?_concat ..)
      rw [quotedChar_of_ne hquote.symm] at hfront ⊢
      have hclosing : closingQuote? quote ('\\' :: quote :: rest) = none := by
        rw [closingQuote?, if_pos ⟨rfl, rfl⟩, closingQuote?_of_not_mem hnone]
        rfl
      have hlast : lastEscapedQuote? quote ('\\' :: quote :: rest) = some 1 := by
        rw [lastEscapedQuote?, if_pos ⟨rfl, rfl⟩, lastEscapedQuote?_of_not_mem hnone]
      have hescaped := lastEscapedQuote?_backslashed hquote front hfront hlast
      rw [List.singleton_append] at hescaped ⊢
      rw [hclosing, Option.map_none, Option.none_or, hescaped]
      exact congrArg some (Nat.add_comm _ _)
    · have hclosing : closingQuote? quote (quotedChar quote c ++ quote :: rest) =
          some (quotedChar quote c).length := by
        by_cases hc : c = quote
        · rw [hc, quotedChar_self]
          show closingQuote? quote ('\\' :: quote :: quote :: rest) = some 2
          rw [closingQuote?, if_pos ⟨rfl, rfl⟩, closingQuote?_self hquote]
          rfl
        · rw [quotedChar_of_ne hc, List.singleton_append,
            closingQuote?_cons hc fun heq => absurd heq hslash, closingQuote?_self hquote]
          rfl
      rw [hclosing, Option.map_some, Option.some_or]
      exact congrArg some (Nat.add_comm _ _)

/-- Nothing but a string starts with a quote. -/
theorem readToken_quote {square after : Bool} (hquote : quote = '\x22' ∨ quote = '\x27')
    (r : Text) : readToken square after (quote :: r) = quoted (quote :: r) := by
  rcases hquote with rfl | rfl <;> rfl

/-- A text in quotes is read as the string that it is. -/
theorem readToken_inQuotes {square after : Bool} (hquote : quote = '\x22' ∨ quote = '\x27')
    (h : s.getLast? = some '\\' → quote ∉ rest) :
    readToken square after (inQuotes quote s ++ rest) =
      some (.token (.string s) (inQuotes quote s).length) := by
  have hslash : quote ≠ '\\' := by rcases hquote with rfl | rfl <;> decide
  have hrest : inQuotes quote s ++ rest = quote :: (backslashed quote s ++ quote :: rest) := by
    simp [inQuotes]
  rw [hrest, readToken_quote hquote, quoted_cons hquote, closingPlace_backslashed hslash h]
  dsimp only
  rw [List.take_left, unescapeQuote_backslashed hslash]
  simp [inQuotes]

end Reading

/-! ## The template -/

/-- The tag of a string is cut into its delimiters, the name in front of the string, and the
string. -/
theorem tokenize_quotedTemplate {square : Bool} {quote : Char}
    (hquote : quote = '\x22' ∨ quote = '\x27') (s : Text) :
    ∃ ls, tokenize square (quotedTemplate quote s) = ⟨ls, none⟩ ∧ ls.map Lexeme.token =
      .opener .plain ['{', '{'] :: .ident ['f'] :: ([.string s] ++ [.closer ['}', '}']]) := by
  have hbraces : quote ∉ ['}', '}'] := by rcases hquote with rfl | rfl <;> decide
  have hspace : isTagSpace quote = false := by rcases hquote with rfl | rfl <;> rfl
  exact Scanner.tokenize_call <| Scanner.takes_token hspace
    (fun _ => Reading.readToken_inQuotes hquote fun _ => hbraces) rfl

end Stache
