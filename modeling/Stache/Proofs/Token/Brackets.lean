import Stache.Proofs.Token.PathText

/-!
# Names in brackets

Any name can be written in brackets: a backslash goes in front of every backslash and of every
`]` in it (`Text.escaped`).  Two walks read what is written.  One looks for the bracket that
closes, the other drops the backslashes again.  They differ on a backslash that stands behind
another one: the second walk has taken it with the first, and the first walk takes it with what
follows.  In an escaped name that is never a `]`, except at the end.  So a name that ends in a
backslash is not closed by the bracket behind it (`bracketWidth?_escaped`), and any other name is
read back (`readToken_escaped`).
-/

namespace Stache

/-- A character as it is written in brackets. -/
def escapedChar (c : Char) : Text := if c = '\\' ∨ c = ']' then ['\\', c] else [c]

/-- A name as it is written in brackets. -/
def Text.escaped (name : Text) : Text := name.flatMap escapedChar

/-- The template `{{[name]}}`. -/
def bracketTemplate (name : Text) : Text :=
  ['{', '{'] ++ ('[' :: (name.escaped ++ [']']) ++ ['}', '}'])

namespace Reading

open Text

variable {c : Char} {name rest : Text} {after : Bool}

theorem escaped_cons (c : Char) (name : Text) :
    escaped (c :: name) = escapedChar c ++ escaped name := List.flatMap_cons

theorem escaped_append (name name' : Text) :
    escaped (name ++ name') = escaped name ++ escaped name' := List.flatMap_append

theorem escapedChar_of_escaped (h : c = '\\' ∨ c = ']') : escapedChar c = ['\\', c] := if_pos h

theorem escapedChar_of_plain (h : ¬(c = '\\' ∨ c = ']')) : escapedChar c = [c] := if_neg h

/-! ## The two walks -/

/-- The walk that drops the backslashes gives the name back. -/
theorem unescapeBracket_escaped (name rest : Text) :
    unescapeBracket (escaped name ++ rest) = name ++ unescapeBracket rest := by
  induction name with
  | nil => rfl
  | cons c name ih =>
      rw [escaped_cons, List.append_assoc, List.cons_append, ← ih]
      by_cases hc : c = '\\' ∨ c = ']'
      · rw [escapedChar_of_escaped hc]
        rcases hc with rfl | rfl <;> rfl
      · obtain ⟨hslash, -⟩ := not_or.mp hc
        rw [escapedChar_of_plain hc, List.singleton_append, unescapeBracket]
        · exact fun _ heq _ => hslash heq
        · exact fun _ heq _ => hslash heq

/-- No escaped character starts with a `]`. -/
theorem head?_escapedChar_append (c : Char) (rest : Text) :
    (escapedChar c ++ rest).head? ≠ some ']' := by
  by_cases hc : c = '\\' ∨ c = ']'
  · rw [escapedChar_of_escaped hc]
    exact fun heq => absurd (Option.some.inj heq) (by decide)
  · rw [escapedChar_of_plain hc]
    exact fun heq => hc (.inr (Option.some.inj heq))

theorem head?_escaped_append (name : Text) (h : rest.head? ≠ some ']') :
    (escaped name ++ rest).head? ≠ some ']' := by
  cases name with
  | nil => exact h
  | cons c name =>
      rw [escaped_cons, List.append_assoc]
      exact head?_escapedChar_append c _

/-- A character that neither closes nor escapes a bracket is walked over. -/
theorem bracketWidth?_cons (hc : c ≠ ']') (hescape : c = '\\' → rest.head? ≠ some ']') :
    bracketWidth? (c :: rest) = (bracketWidth? rest).map (· + 1) := by
  rw [bracketWidth?]
  · exact hc
  · rintro r rfl rfl
    exact hescape rfl rfl

/-- An escaped character that no `]` follows is walked over. -/
theorem bracketWidth?_escapedChar (c : Char) (h : rest.head? ≠ some ']') :
    bracketWidth? (escapedChar c ++ rest) =
      (bracketWidth? rest).map (· + (escapedChar c).length) := by
  by_cases hc : c = '\\' ∨ c = ']'
  · rw [escapedChar_of_escaped hc]
    rcases hc with rfl | rfl
    · show bracketWidth? ('\\' :: '\\' :: rest) = _
      rw [bracketWidth?_cons (by decide) fun _ => by simp,
        bracketWidth?_cons (by decide) fun _ => h, Option.map_map]
      rfl
    · rfl
  · obtain ⟨hslash, hbracket⟩ := not_or.mp hc
    rw [escapedChar_of_plain hc]
    exact bracketWidth?_cons hbracket fun heq => absurd heq hslash

theorem bracketWidth?_escaped_append (name : Text) (h : rest.head? ≠ some ']') :
    bracketWidth? (escaped name ++ rest) =
      (bracketWidth? rest).map (· + (escaped name).length) := by
  induction name with
  | nil => exact (Option.map_id' ..).symm
  | cons c name ih =>
      rw [escaped_cons, List.append_assoc,
        bracketWidth?_escapedChar c (head?_escaped_append name h), ih, Option.map_map,
        List.length_append, Nat.add_comm (escapedChar c).length]
      exact congrArg (Option.map · _) (funext fun n => Nat.add_assoc n _ _)

/-- In front of the closing bracket only a backslash matters. -/
theorem bracketWidth?_escapedChar_closer (c : Char) (rest : Text) :
    bracketWidth? (escapedChar c ++ ']' :: rest) =
      if c = '\\' then (bracketWidth? rest).map (· + 3)
      else some ((escapedChar c).length + 1) := by
  by_cases hc : c = '\\' ∨ c = ']'
  · rw [escapedChar_of_escaped hc]
    rcases hc with rfl | rfl
    · show bracketWidth? ('\\' :: '\\' :: ']' :: rest) = (bracketWidth? rest).map (· + 3)
      rw [bracketWidth?_cons (by decide) fun _ => by simp]
      show ((bracketWidth? rest).map (· + 2)).map (· + 1) = _
      rw [Option.map_map]
      rfl
    · rfl
  · obtain ⟨hslash, hbracket⟩ := not_or.mp hc
    rw [escapedChar_of_plain hc, if_neg hslash]
    exact bracketWidth?_cons hbracket fun heq => absurd heq hslash

/-- **The bracket behind an escaped name closes it**, unless the name ends in a backslash. -/
theorem bracketWidth?_escaped (name rest : Text) :
    bracketWidth? (escaped name ++ ']' :: rest) =
      if name.getLast? = some '\\' then
        (bracketWidth? rest).map (· + ((escaped name).length + 1))
      else some ((escaped name).length + 1) := by
  rcases List.eq_nil_or_concat name with rfl | ⟨front, c, rfl⟩
  · rfl
  · rw [List.concat_eq_append]
    have hone : escaped [c] = escapedChar c := List.append_nil _
    have hwidth := bracketWidth?_escaped_append front (head?_escapedChar_append c (']' :: rest))
    rw [escaped_append, List.append_assoc, hone, hwidth, bracketWidth?_escapedChar_closer,
      List.getLast?_concat, List.length_append]
    by_cases hc : c = '\\'
    · subst hc
      have hlength (n : Nat) : n + 3 + (escaped front).length =
          n + ((escaped front).length + (escapedChar '\\').length + 1) := by
        show n + 3 + _ = n + (_ + 2 + 1)
        omega
      rw [if_pos rfl, if_pos rfl, Option.map_map]
      exact congrArg (Option.map · _) (funext hlength)
    · rw [if_neg hc, if_neg fun heq => hc (Option.some.inj heq), Option.map_some]
      exact congrArg some (by omega)

/-! ## The token -/

theorem readToken_escaped (h : name.getLast? ≠ some '\\') (rest : Text) :
    readToken false after ('[' :: (escaped name ++ [']']) ++ rest) =
      some (.token (.ident ('[' :: (name ++ [']']))) ('[' :: (escaped name ++ [']'])).length) := by
  have hrest : '[' :: (escaped name ++ [']']) ++ rest = '[' :: (escaped name ++ ']' :: rest) := by
    simp
  have htake : ('[' :: (escaped name ++ ']' :: rest)).take ((escaped name).length + 1 + 1) =
      '[' :: (escaped name ++ [']']) := by
    rw [← hrest]
    exact List.take_left' (by simp)
  have hname : unescapeBracket ('[' :: (escaped name ++ [']'])) = '[' :: (name ++ [']']) :=
    congrArg ('[' :: ·) (unescapeBracket_escaped name [']'])
  show bracketIdent ('[' :: (escaped name ++ [']']) ++ rest) = _
  rw [hrest, bracketIdent, bracketWidth?_escaped, if_neg h, Option.map_some, htake, hname]
  simp

/-- No token starts at a bracket that nothing closes. -/
theorem readToken_escaped_eq_none (h : name.getLast? = some '\\')
    (hrest : bracketWidth? rest = none) :
    readToken false after ('[' :: (escaped name ++ ']' :: rest)) = none := by
  show bracketIdent ('[' :: (escaped name ++ ']' :: rest)) = none
  rw [bracketIdent, bracketWidth?_escaped, if_pos h, hrest]
  rfl

end Reading

/-- The scanner stops inside a tag where no token starts. -/
theorem Scanner.step_eq_failed {square : Bool} {s : State} {c : Char} {r : Text}
    (hs : s.mode = .tag) (hc : isTagSpace c = false)
    (hread : Reading.readToken square s.afterSeparator (c :: r) = none) :
    step square s (c :: r) =
      .failed ⟨.unexpectedCharacter, s.offset, s.offset + c.utf8Size⟩ := by
  have hspace : (c :: r).takeWhile isTagSpace = [] := by
    rw [List.takeWhile_cons, hc]
    rfl
  have hrest : (c :: r).dropWhile isTagSpace = c :: r := by
    rw [List.dropWhile_cons, hc]
    rfl
  have htag : step square s (c :: r) = tagStep square s (c :: r) := by rw [step, hs]
  rw [htag, tagStep, hspace, hrest]
  simp only [hread]
  rfl

/-! ## The template -/

open Reading

variable {name : Text}

/-- The tag of a name in brackets is cut into its delimiters and the name. -/
theorem tokenize_bracketTemplate (h : name.getLast? ≠ some '\\') :
    ∃ ls, tokenize false (bracketTemplate name) = ⟨ls, none⟩ ∧ ls.map Lexeme.token =
      [.opener .plain ['{', '{'], .ident ('[' :: (name ++ [']'])), .closer ['}', '}']] := by
  have hopener : Scanner.Takes false ('[' :: (name.escaped ++ [']']) ++ ['}', '}']) ['{', '{']
      [.opener .plain ['{', '{']] := Scanner.takes_token rfl (fun _ => rfl) rfl
  have hname : Scanner.Takes false ['}', '}'] ('[' :: (name.escaped ++ [']']))
      [.ident ('[' :: (name ++ [']']))] :=
    Scanner.takes_token rfl (fun _ => readToken_escaped h _) rfl
  exact Scanner.tokenize_tag (hopener.append hname) rfl

/-- The scanner stops in front of the bracket if the name ends in a backslash. -/
theorem tokenize_bracketTemplate_backslash (h : name.getLast? = some '\\') :
    tokenize false (bracketTemplate name) =
      ⟨[⟨.opener .plain ['{', '{'], ⟨0, 2⟩⟩], some ⟨.unexpectedCharacter, ⟨2, 3⟩⟩⟩ := by
  have hrest : '[' :: (name.escaped ++ [']']) ++ ['}', '}'] =
      '[' :: (name.escaped ++ ']' :: ['}', '}']) := by
    simp
  have hstart : Scanner.step false .initial (bracketTemplate name) =
      .moved [] { Scanner.State.initial with mode := .tag } (bracketTemplate name) := rfl
  have hopener : Scanner.step false { Scanner.State.initial with mode := .tag }
      (bracketTemplate name) =
        .moved [⟨.opener .plain ['{', '{'], ⟨0, 2⟩⟩] ⟨.tag, 2, false, 0⟩
          ('[' :: (name.escaped ++ [']']) ++ ['}', '}']) := rfl
  have hfault : Scanner.step false ⟨.tag, 2, false, 0⟩
      ('[' :: (name.escaped ++ ']' :: ['}', '}'])) =
        .failed ⟨.unexpectedCharacter, ⟨2, 3⟩⟩ :=
    Scanner.step_eq_failed rfl rfl (readToken_escaped_eq_none h rfl)
  rw [tokenize, Scanner.scan_of_step hstart, Scanner.scan_of_step hopener, hrest,
    Scanner.scan_of_failed hfault]
  rfl

end Stache
