import Stache.Proofs.Grammar.Mirrored
import Stache.Proofs.Token.Copies

/-!
# Fragments of templates

A `Fragment` is a text with its tokens, whose places count from the start of the text.  Fragments
are put together by putting their texts one behind the other, and then the tokens of the whole
are those of the parts, moved to where the parts stand (`Grammar.Holds.exists_append`).

A fragment that stands in two templates has the same characters under its tokens in both
(`Grammar.Holds.mirrors`).
-/

namespace Stache

/-- A text with its tokens. -/
structure Fragment where
  text : Text
  lexemes : List Lexeme
  /-- No token goes beyond the text. -/
  within : ∀ l ∈ lexemes, l.span.stop ≤ text.byteLength

namespace Fragment

/-- The tokens without their places. -/
def tokens (f : Fragment) : List Token := Grammar.tokensOf f.lexemes

/-- Text without tokens, which is white space between them. -/
def padding (t : Text) : Fragment := ⟨t, [], nofun⟩

theorem within_append (f f' : Fragment) :
    ∀ l ∈ f.lexemes ++ f'.lexemes.map (Lexeme.shift f.text.byteLength),
      l.span.stop ≤ (f.text ++ f'.text).byteLength := by
  intro l hl
  rw [Text.byteLength_append]
  rcases List.mem_append.mp hl with hl | hl
  · exact Nat.le_add_right_of_le (f.within l hl)
  · obtain ⟨l', hl', rfl⟩ := List.mem_map.mp hl
    have hstop : (l'.shift f.text.byteLength).span.stop = l'.span.stop + f.text.byteLength := rfl
    have hwithin := f'.within l' hl'
    omega

/-- One fragment behind another. -/
def append (f f' : Fragment) : Fragment :=
  ⟨f.text ++ f'.text, f.lexemes ++ f'.lexemes.map (Lexeme.shift f.text.byteLength),
    within_append f f'⟩

instance : Append Fragment := ⟨append⟩

/-- A fragment of one token, which may have something without tokens behind it. -/
def single (token : Token) (spelling padding : Text) : Fragment where
  text := spelling ++ padding
  lexemes := [⟨token, ⟨0, spelling.byteLength⟩⟩]
  within l hl := by
    obtain rfl := List.mem_singleton.mp hl
    rw [Text.byteLength_append]
    exact Nat.le_add_right _ _

variable (f f' : Fragment)

theorem text_append : (f ++ f').text = f.text ++ f'.text := rfl

theorem lexemes_append :
    (f ++ f').lexemes = f.lexemes ++ f'.lexemes.map (Lexeme.shift f.text.byteLength) := rfl

@[simp] theorem tokens_append : (f ++ f').tokens = f.tokens ++ f'.tokens := by
  rw [tokens, lexemes_append, Grammar.tokensOf_append, Grammar.tokensOf_shift]
  rfl

@[simp] theorem tokens_single (token : Token) (spelling padding : Text) :
    (single token spelling padding).tokens = [token] := rfl

/-- The tree of a fragment that is a whole template. -/
def parse (b : Builder) : Except Diagnostic Program :=
  (⟨b, f.text⟩ : Grammar).parse f.lexemes

end Fragment

namespace Grammar

theorem shift_shift (n m : Nat) (l : Lexeme) : (l.shift n).shift m = l.shift (m + n) := by
  rw [Lexeme.shift, Lexeme.shift, Lexeme.shift, Span.shift, Span.shift, Span.shift, Nat.add_assoc,
    Nat.add_assoc, Nat.add_comm m n]

/-- The place of tokens that stay below an offset. -/
theorem covered_stop_le {n : Nat} {ls : List Lexeme} (hne : ls ≠ [])
    (h : ∀ l ∈ ls, l.span.stop ≤ n) : (covered ls).stop ≤ n := by
  obtain ⟨l, ls, rfl⟩ := List.exists_cons_of_ne_nil hne
  obtain ⟨hfirst, hmore⟩ := List.forall_mem_cons.mp h
  rw [covered]
  dsimp only
  clear h hne
  generalize l.span = last at hfirst
  induction ls generalizing last with
  | nil => exact hfirst
  | cons l' ls ih =>
      obtain ⟨hl, hmore⟩ := List.forall_mem_cons.mp hmore
      exact ih hmore l'.span hl

/-! ## Fragments in a template -/

/-- The fragment stands in the text, with the tokens `ls`. -/
def Holds (g : Grammar) (f : Fragment) (ls : List Lexeme) : Prop :=
  ∃ before after, g.text = before ++ (f.text ++ after) ∧
    ls = f.lexemes.map (Lexeme.shift before.byteLength)

namespace Holds

variable {g g' : Grammar} {f f' : Fragment} {ls ls' : List Lexeme}

theorem whole (b : Builder) (f : Fragment) : (⟨b, f.text⟩ : Grammar).Holds f f.lexemes :=
  ⟨[], [], (List.append_nil f.text).symm, (List.map_id f.lexemes).symm⟩

theorem tokens_eq (h : g.Holds f ls) : tokensOf ls = f.tokens := by
  obtain ⟨before, after, -, rfl⟩ := h
  exact tokensOf_shift

theorem exists_append (h : g.Holds (f ++ f') ls) :
    ∃ front back, ls = front ++ back ∧ g.Holds f front ∧ g.Holds f' back := by
  obtain ⟨before, after, htext, rfl⟩ := h
  rw [Fragment.text_append, List.append_assoc] at htext
  refine ⟨f.lexemes.map (Lexeme.shift before.byteLength),
    f'.lexemes.map (Lexeme.shift (Text.byteLength (before ++ f.text))), ?_,
    ⟨before, _, htext, rfl⟩, ⟨before ++ f.text, after, ?_, rfl⟩⟩
  · rw [Fragment.lexemes_append, List.map_append, List.map_map, Text.byteLength_append]
    exact congrArg _ (List.map_congr_left fun l _ => shift_shift _ _ l)
  · rw [htext, List.append_assoc]

theorem exists_single {token : Token} {spelling padding : Text}
    (h : g.Holds (.single token spelling padding) ls) : ∃ s, ls = [⟨token, s⟩] := by
  obtain ⟨before, after, -, rfl⟩ := h
  exact ⟨_, rfl⟩

/-- The characters under tokens of the fragment. -/
theorem slice_eq {before after : Text} (htext : g.text = before ++ (f.text ++ after))
    {own : List Lexeme} (hown : own <:+: f.lexemes) :
    g.text.slice (covered (own.map (Lexeme.shift before.byteLength))).start
      (covered (own.map (Lexeme.shift before.byteLength))).stop =
    f.text.slice (covered own).start (covered own).stop := by
  by_cases hne : own = []
  · rw [hne, List.map_nil, covered, Text.slice_zero_zero, Text.slice_zero_zero]
  · have hstop : (covered own).stop ≤ f.text.byteLength :=
      covered_stop_le hne fun l hl => f.within l (hown.subset hl)
    rw [covered_shift _ hne, htext, Span.shift]
    dsimp only
    rw [Nat.add_comm, Nat.add_comm _ before.byteLength, Text.slice_behind,
      Text.slice_of_le_byteLength after hstop]

/-- A fragment in two templates. -/
theorem mirrors (h : g.Holds f ls) (h' : g'.Holds f ls') (hbuilder : g'.builder = g.builder) :
    Mirrors g g' ls ls' := by
  refine ⟨hbuilder, h'.tokens_eq.trans h.tokens_eq.symm, ?_⟩
  obtain ⟨before, after, htext, rfl⟩ := h
  obtain ⟨before', after', htext', rfl⟩ := h'
  intro front own back front' own' back' hls hls' hfront hown
  obtain ⟨a, rest, hsplit, rfl, hrest⟩ := List.map_eq_append_iff.mp hls
  obtain ⟨m, c, rfl, rfl, rfl⟩ := List.map_eq_append_iff.mp hrest
  rw [hsplit, List.map_append, List.map_append] at hls'
  obtain ⟨-, hmore⟩ := List.append_inj hls' (by
    rw [List.length_map] at hfront ⊢
    exact hfront.symm)
  obtain ⟨rfl, -⟩ := List.append_inj hmore (by
    rw [List.length_map] at hown ⊢
    exact hown.symm)
  have hinfix : m <:+: f.lexemes := by
    rw [hsplit]
    exact ⟨a, c, List.append_assoc a m c⟩
  rw [slice_eq htext hinfix, slice_eq htext' hinfix]

end Holds

end Grammar
end Stache
