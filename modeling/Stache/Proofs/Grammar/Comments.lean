import Stache.Proofs.Grammar.ReadBack
import Stache.Proofs.Token.Partial

/-!
# Long comments are read back

A comment between dashes may hold anything but its own end.  Three things are done to it, each of
which counts dashes and markers in its own way.  The scanner looks for the first `--}}` or `--~}}`
behind the `!`, where the dashes that open the comment count as well.  The builder takes the
delimiters off again from both ends of what the scanner has found, and it reads the markers there.

If the comment can end nowhere before its end (`EndsFirst`), the three agree on what is delimiter
and what is text (`readsComment_commentTemplate`).
-/

namespace Stache

/-! ## Comments as they are written -/

/-- The marker at one end of a tag, if there is one. -/
def marker (marked : Bool) : Text := if marked then ['~'] else []

/-- The end of a long comment. -/
def commentEnd (after : Bool) : Text := ['-', '-'] ++ (marker after ++ ['}', '}'])

/-- The template `{{!--text--}}`, with its markers. -/
def commentTemplate (before after : Bool) (text : Text) : Text :=
  ['{', '{'] ++ (marker before ++ '!' :: '-' :: '-' :: (text ++ commentEnd after))

/-- A long comment can end where this text starts. -/
def EndsComment (rest : Text) : Prop := commentEnd false <+: rest ∨ commentEnd true <+: rest

/-- From the dashes on that open it, the first place where the comment can end is its own end. -/
def EndsFirst (after : Bool) (text : Text) : Prop :=
  ∀ rest : Text, rest <:+ '-' :: '-' :: (text ++ commentEnd after) → EndsComment rest →
    rest = commentEnd after

instance (rest : Text) : Decidable (EndsComment rest) :=
  inferInstanceAs (Decidable (_ ∨ _))

instance (after : Bool) (text : Text) : Decidable (EndsFirst after text) :=
  decidable_of_iff
    (∀ rest ∈ ('-' :: '-' :: (text ++ commentEnd after)).tails, EndsComment rest →
      rest = commentEnd after)
    (by simp only [List.mem_tails, EndsFirst])

variable {before after : Bool} {text : Text}

/-! ## The end is found -/

namespace Reading

/-- The first mark is found behind a text in which no other one starts. -/
theorem endOfFirst_eq_some {mark : Text → Option Nat} {front rest : Text} {width : Nat}
    (hrest : mark rest = some width) (hne : rest ≠ [])
    (hfront : ∀ v, v ≠ [] → v <:+ front → mark (v ++ rest) = none) :
    (front ++ rest).endOfFirst mark = some (front.length + width) := by
  induction front with
  | nil =>
      obtain ⟨c, r, rfl⟩ := List.exists_cons_of_ne_nil hne
      rw [List.nil_append, Text.endOfFirst, hrest]
      exact congrArg some (Nat.zero_add width).symm
  | cons c front ih =>
      have hnone : mark (c :: (front ++ rest)) = none :=
        hfront (c :: front) (List.cons_ne_nil c front) List.suffix_rfl
      have hmore := ih fun v hv hsuffix => hfront v hv (hsuffix.trans (List.suffix_cons c front))
      rw [List.cons_append, Text.endOfFirst, hnone]
      dsimp only
      rw [hmore, Option.map_some, List.length_cons]
      exact congrArg some (by omega)

/-- The comment is found to end at its own end. -/
theorem commentWidth?_commentEnd (h : EndsFirst after text) :
    commentWidth? ('-' :: '-' :: (text ++ commentEnd after)) =
      some ('-' :: '-' :: (text ++ commentEnd after)).length := by
  have hopen : ['-', '-'].isPrefixOf ('-' :: '-' :: (text ++ commentEnd after)) = true := rfl
  have hnot {v : Text} (hv : v ≠ []) (hsuffix : v <:+ '-' :: '-' :: text) :
      ¬EndsComment (v ++ commentEnd after) := by
    obtain ⟨w, hw⟩ := hsuffix
    intro hends
    have hrest : v ++ commentEnd after <:+ '-' :: '-' :: (text ++ commentEnd after) :=
      ⟨w, by rw [← List.append_assoc, hw]; rfl⟩
    exact hv (List.append_left_eq_self.mp (h _ hrest hends))
  have hsplit : '-' :: '-' :: (text ++ commentEnd after) =
      '-' :: '-' :: text ++ commentEnd after := rfl
  rw [commentWidth?, if_pos hopen, hsplit, List.length_append]
  refine endOfFirst_eq_some ?_ ?_ fun v hv hsuffix => ?_
  · cases after <;> rfl
  · exact List.cons_ne_nil _ _
  · have hends := not_or.mp (hnot hv hsuffix)
    exact (if_neg fun h => hends.1 (List.isPrefixOf_iff_prefix.mp h)).trans
      (if_neg fun h => hends.2 (List.isPrefixOf_iff_prefix.mp h))

/-- The whole comment is one token. -/
theorem readToken_comment (square afterSeparator before : Bool) (h : EndsFirst after text) :
    readToken square afterSeparator (commentTemplate before after text) =
      some (.token (.comment (commentTemplate before after text))
        (commentTemplate before after text).length) := by
  have hwidth := commentWidth?_commentEnd h
  have hopener : opener (commentTemplate before after text) =
      some (openerAt (commentTemplate before after text) (2 + (marker before).length)
        ('!' :: '-' :: '-' :: (text ++ commentEnd after))) := by
    cases before <;> rfl
  have hbraces : readToken square afterSeparator (commentTemplate before after text) =
      opener (commentTemplate before after text) := by
    cases before <;> exact readToken_braces square afterSeparator _
  have hlength : 2 + (marker before).length + 1 +
      ('-' :: '-' :: (text ++ commentEnd after)).length =
        (commentTemplate before after text).length := by
    simp [commentTemplate]
    omega
  rw [hbraces, hopener, openerAt_comment, hwidth]
  dsimp only
  rw [hlength, List.take_length]

end Reading

/-- The comment is all there is. -/
theorem tokenize_commentTemplate (square before : Bool) (h : EndsFirst after text) :
    ∃ span, tokenize square (commentTemplate before after text) =
      ⟨[⟨.comment (commentTemplate before after text), span⟩], none⟩ := by
  have hstart : Scanner.step square .initial (commentTemplate before after text) =
      .moved [] { Scanner.State.initial with mode := .tag }
        (commentTemplate before after text) := rfl
  obtain ⟨span, s', hstep, hmode⟩ : ∃ span s', Scanner.step square
      { Scanner.State.initial with mode := .tag } (commentTemplate before after text) =
        .moved [⟨.comment (commentTemplate before after text), span⟩] s'
          ((commentTemplate before after text).drop (commentTemplate before after text).length) ∧
      s'.mode = .text :=
    Scanner.exists_step_token rfl rfl (Reading.readToken_comment square false before h)
  rw [List.drop_length] at hstep
  refine ⟨span, ?_⟩
  rw [tokenize, Scanner.scan_of_step hstart, Scanner.scan_of_step hstep,
    Scanner.scan_nil (by rw [hmode]; decide)]
  rfl

/-! ## The delimiters are taken off -/

namespace Text

theorem before?_append (t stop : Text) : before? stop (t ++ stop) = some t := by
  rw [before?, if_pos (List.isSuffixOf_iff_suffix.mpr (List.suffix_append t stop))]
  simp

theorem withoutLast_concat (c : Char) (t : Text) : withoutLast c (t ++ [c]) = t := by
  simp [withoutLast, withoutFirst]

theorem withoutLast_concat_of_ne {c d : Char} (h : d ≠ c) (t : Text) :
    withoutLast c (t ++ [d]) = t ++ [d] := by
  simp [withoutLast, withoutFirst, h]

end Text

/-- The text of the comment is given back. -/
theorem commentText_commentTemplate (before after : Bool) (text : Text) :
    commentText (commentTemplate before after text) = text := by
  have hfront : commentText (commentTemplate before after text) =
      ((Text.before? ['}', '}'] (text ++ commentEnd after)).map fun r =>
        Text.withoutLast '-' (Text.withoutLast '-' (Text.withoutLast '~' r))).getD
          (text ++ commentEnd after) := by
    cases before <;> rfl
  have hdashes : Text.withoutLast '-' (Text.withoutLast '-' ((text ++ ['-']) ++ ['-'])) = text := by
    rw [Text.withoutLast_concat, Text.withoutLast_concat]
  have hmarker : Text.withoutLast '~' (((text ++ ['-']) ++ ['-']) ++ marker after) =
      (text ++ ['-']) ++ ['-'] := by
    cases after with
    | true => exact Text.withoutLast_concat ..
    | false =>
        rw [marker, if_neg Bool.false_ne_true, List.append_nil]
        exact Text.withoutLast_concat_of_ne (by decide) _
  have hend : text ++ commentEnd after =
      (((text ++ ['-']) ++ ['-']) ++ marker after) ++ ['}', '}'] := by
    simp [commentEnd]
  rw [hfront, hend, Text.before?_append, Option.map_some, Option.getD_some, hmarker, hdashes]

/-- Its markers are read off. -/
theorem ofDelimiters_commentTemplate (before after : Bool) (text : Text) :
    Strip.ofDelimiters (commentTemplate before after text) (commentTemplate before after text) =
      { before := before, after := after } := by
  have hback : (commentTemplate before after text).reverse = (commentEnd after).reverse ++
      (['{', '{'] ++ (marker before ++ '!' :: '-' :: '-' :: text)).reverse := by
    rw [← List.reverse_append]
    simp [commentTemplate]
  rw [Strip.ofDelimiters, hback]
  cases before <;> cases after <;> rfl

/-! ## The template -/

/-- The template is one comment, with the given text and markers. -/
def ReadsComment (before after : Bool) (text : Text)
    (result : Except ParseFailure Program) : Prop :=
  ∃ tree node, result = .ok tree ∧ tree.body = [.comment node] ∧ node.value = text ∧
    node.strip = { before := before, after := after }

/-- **A long comment is read back**, with any markers.  It may hold `}}`, dashes and markers
anywhere, as long as it can end nowhere before its own end. -/
theorem readsComment_commentTemplate (o : Options) {before after : Bool} {text : Text}
    (h : EndsFirst after text) :
    ReadsComment before after text (parseRaw o (commentTemplate before after text)) := by
  obtain ⟨span, htokens⟩ := tokenize_commentTemplate o.brackets.isList before h
  rw [parseRaw_of_tokenize htokens, Grammar.parse, Grammar.program_of_writesStatement .comment]
  exact ⟨_, _, rfl, rfl, commentText_commentTemplate before after text,
    ofDelimiters_commentTemplate before after text⟩

/-- A marker in front, braces behind a dash, and a dash at the end. -/
def dashesText : Text := "~-\x7d\x7d-".toList

example : commentTemplate true false dashesText =
    "\x7b\x7b~!--~-\x7d\x7d---\x7d\x7d".toList := by decide

/-- This comment is read back, and so is the empty one. -/
theorem readsComment_dashesText :
    (EndsFirst false dashesText ∧
        ReadsComment true false dashesText (parseRaw {} (commentTemplate true false dashesText))) ∧
      EndsFirst true [] ∧
        ReadsComment false true [] (parseRaw {} (commentTemplate false true [])) := by
  have hdashes : EndsFirst false dashesText := by decide
  have hempty : EndsFirst true [] := by decide
  exact ⟨⟨hdashes, readsComment_commentTemplate {} hdashes⟩, hempty,
    readsComment_commentTemplate {} hempty⟩

end Stache
