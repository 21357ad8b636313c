import Stache.Grammar.Cursor

/-!
# What a production reads

A production that succeeds has read some tokens from the front of the rest, and
the place of the last of them is where it ends.  `Cursor.Reads` says which
tokens these are.  The lemmas below give it for the steps that productions are
made of.
-/

namespace Stache

/-! ## The place of tokens -/

/-- The place of the last of some tokens that follow `last`. -/
def endOf (last : Span) : List Lexeme → Span
  | [] => last
  | l :: ls => endOf l.span ls
termination_by structural ls => ls

/-- What some tokens cover together. -/
def covered : List Lexeme → Span
  | [] => ⟨0, 0⟩
  | l :: ls => ⟨l.span.start, (endOf l.span ls).stop⟩

/-- The end of two lists is that of the second one, if there is a token in it. -/
theorem endOf_append (last : Span) (ls ls' : List Lexeme) :
    endOf last (ls ++ ls') = endOf (endOf last ls) ls' := by
  induction ls generalizing last with
  | nil => rfl
  | cons l ls ih => exact ih l.span

/-! ## Reading -/

/-- The tokens `ls` lead from one cursor to another. -/
structure Cursor.Reads (c : Cursor) (ls : List Lexeme) (c' : Cursor) : Prop where
  rest_eq : c.rest = ls ++ c'.rest
  last_eq : c'.last = endOf c.last ls

namespace Cursor

variable {α : Type} {c c' c'' : Cursor} {l : Lexeme} {ls ls' : List Lexeme}

theorem Reads.refl (c : Cursor) : c.Reads [] c := ⟨rfl, rfl⟩

/-- What is read in two parts is read. -/
theorem Reads.trans (h : c.Reads ls c') (h' : c'.Reads ls' c'') : c.Reads (ls ++ ls') c'' := by
  constructor
  · rw [h.rest_eq, h'.rest_eq, List.append_assoc]
  · rw [h'.last_eq, h.last_eq, endOf_append]

/-- What is read token by token is read. -/
theorem Reads.cons (h : c.Reads [l] c') (h' : c'.Reads ls c'') : c.Reads (l :: ls) c'' :=
  h.trans h'

/-- A production that reads something ends where its last token ends. -/
theorem Reads.span_eq (h : c.Reads (l :: ls) c') :
    (⟨l.span.start, c'.last.stop⟩ : Span) = covered (l :: ls) := by
  rw [h.last_eq]
  rfl

/-- The next token starts what is read. -/
theorem Reads.start_eq (h : c.Reads (l :: ls) c') : c.start = l.span.start := by
  unfold start here?
  rw [h.rest_eq]
  rfl

/-- The token that a cursor comes to is read. -/
theorem reads_of_next? {h : c'.rest.length < c.rest.length} (hnext : c.next? = some ⟨l, c', h⟩) :
    c.Reads [l] c' := by
  obtain ⟨last, rest⟩ := c
  cases rest with
  | nil => cases hnext
  | cons l' rest =>
      cases hnext
      exact ⟨rfl, rfl⟩

/-- A token that was asked for.  `token` gives back the token from what `pick`
takes of it. -/
theorem reads_of_expect {expected : Expected} {pick : Token → Option α} {token : α → Token}
    (hpick : ∀ {t : Token} {a : α}, pick t = some a → t = token a) {p : Parsed α c.rest.length}
    (h : c.expect expected pick = .ok p) : ∃ s, c.Reads [⟨token p.value, s⟩] p.cursor := by
  rw [expect] at h
  split at h
  · cases h
  · next l c' hlt hnext =>
      split at h
      · next a ha =>
          cases h
          obtain ⟨t, s⟩ := l
          obtain rfl := hpick ha
          exact ⟨s, reads_of_next? hnext⟩
      · cases h

/-- A result behind a commitment is one without it. -/
theorem eq_ok_of_commit {result : Except Refusal α} {a : α} (h : c.commit result = .ok a) :
    result = .ok a := by
  unfold commit at h
  split at h
  · cases h
  · exact h

end Cursor

theorem Refusal.eq_ok_of_lift {α : Type} {result : Except BuildError α} {a : α}
    (h : Refusal.lift result = .ok a) : result = .ok a := by
  cases result with
  | ok b => exact congrArg Except.ok (Except.ok.inj h)
  | error e => cases h

/-- A computation in two steps that succeeds succeeds in both. -/
theorem exists_of_bind_eq_ok {ε α β : Type} {x : Except ε α} {f : α → Except ε β} {b : β}
    (h : x >>= f = .ok b) : ∃ a, x = .ok a ∧ f a = .ok b := by
  cases x with
  | ok a => exact ⟨a, rfl, h⟩
  | error e => cases h

/-- A result that is packed up was there before. -/
theorem exists_of_map_eq_ok {α β ε : Type} {f : α → β} {x : Except ε α} {b : β}
    (h : x.map f = .ok b) : ∃ a, x = .ok a ∧ f a = b := by
  cases x with
  | error e => exact nomatch h
  | ok a => exact ⟨a, rfl, Except.ok.inj h⟩

/-! ## Single tokens -/

namespace Token

variable {t : Token}

theorem eq_of_ident? {text : Text} (h : t.ident? = some text) : t = .ident text := by
  unfold ident? at h
  split at h
  · exact congrArg _ (Option.some.inj h)
  · cases h

theorem eq_of_closer? {text : Text} (h : t.closer? = some text) : t = .closer text := by
  unfold closer? at h
  split at h
  · exact congrArg _ (Option.some.inj h)
  · cases h

theorem eq_of_unescapedCloser? {text : Text} (h : t.unescapedCloser? = some text) :
    t = .unescapedCloser text := by
  unfold unescapedCloser? at h
  split at h
  · exact congrArg _ (Option.some.inj h)
  · cases h

theorem eq_of_rawEnd? {text : Text} (h : t.rawEnd? = some text) : t = .rawEnd text := by
  unfold rawEnd? at h
  split at h
  · exact congrArg _ (Option.some.inj h)
  · cases h

theorem eq_of_blockClose? {text : Text} (h : t.blockClose? = some text) :
    t = .opener .close text := by
  unfold blockClose? at h
  split at h
  · exact congrArg _ (Option.some.inj h)
  · cases h

/-- A token that is asked for as a whole is that token. -/
theorem eq_of_isToken? {t' : Token} {u : Unit} (h : isToken? t t' = some u) : t' = t := by
  simp only [isToken?] at h
  split at h
  · assumption
  · cases h

end Token

end Stache
