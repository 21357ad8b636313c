import Stache.Proofs.Grammar.Meets
import Stache.Proofs.Grammar.Unfinished

/-!
# Text can be escaped

A backslash in front of each `{{` of a text makes a template of that text, as
long as no `{{` has a backslash in front of it already.  The scanner drops the
backslashes and takes the rest as pieces of text, the grammar makes a statement
of each piece, and without tags whitespace control has nothing to do
(`parse_escape`).

The pieces are not those between the braces.  The first one ends in front of the
first backslash.  The piece behind a backslash goes up to the next one.  So the
induction is on a text that starts where a piece ends.
-/

namespace Stache

namespace Text

/-- The text with a backslash in front of each `{{`, found from left to right. -/
def escape : Text → Text
  | '{' :: '{' :: r => '\\' :: '{' :: '{' :: escape r
  | c :: r => c :: escape r
  | [] => []

end Text

/-! ## Splitting a text -/

namespace Scanner

variable {square : Bool} {s : State} {front rest v t : Text}

/-- No tag starts in the first part of a text. -/
def Free (front rest : Text) : Prop :=
  ∀ z, z ≠ [] → z <:+ front → startsTag (z ++ rest) = false

theorem free_cons {c : Char} (h : Free (c :: front) rest) :
    startsTag (c :: (front ++ rest)) = false ∧ Free front rest :=
  ⟨h (c :: front) (List.cons_ne_nil c front) List.suffix_rfl,
    fun z hz hsuffix => h z hz (hsuffix.trans (List.suffix_cons c front))⟩

/-- A text is split in front of its first `{{`. -/
theorem exists_of_text (t : Text) : ∃ front rest, t = front ++ rest ∧ Free front rest ∧
    (rest = [] ∨ ∃ r, rest = '{' :: '{' :: r) := by
  induction t with
  | nil => exact ⟨[], [], rfl, fun z hz hsuffix => absurd (List.suffix_nil.mp hsuffix) hz, .inl rfl⟩
  | cons c t ih =>
      cases hstop : startsTag (c :: t) with
      | true =>
          obtain ⟨r, hr⟩ := List.isPrefixOf_iff_prefix.mp hstop
          exact ⟨[], c :: t, rfl, fun z hz hsuffix => absurd (List.suffix_nil.mp hsuffix) hz,
            .inr ⟨r, hr.symm⟩⟩
      | false =>
          obtain ⟨front, rest, rfl, hfree, hrest⟩ := ih
          refine ⟨c :: front, rest, rfl, fun z hz hsuffix => ?_, hrest⟩
          rcases List.suffix_cons_iff.mp hsuffix with rfl | hsuffix
          · exact hstop
          · exact hfree z hz hsuffix

/-- A search ends behind a part in which it stops nowhere. -/
theorem splitBefore_eq {stop : Text → Bool}
    (h : ∀ z, z ≠ [] → z <:+ front → stop (z ++ v) = false) (hv : v = [] ∨ stop v = true) :
    Text.splitBefore stop (front ++ v) = (front, v) := by
  induction front with
  | nil =>
      rcases hv with rfl | hv
      · rfl
      · cases v with
        | nil => rfl
        | cons c r => rw [List.nil_append, Text.splitBefore, if_pos hv]
  | cons c r ih =>
      have hc := h (c :: r) (List.cons_ne_nil c r) List.suffix_rfl
      rw [List.cons_append] at hc ⊢
      have hr := ih fun z hz hsuffix => h z hz (hsuffix.trans (List.suffix_cons c r))
      rw [Text.splitBefore, hc, hr]
      rfl

theorem escape_cons {c : Char} (h : startsTag (c :: t) = false) :
    Text.escape (c :: t) = c :: t.escape := by
  rw [Text.escape]
  rintro r rfl rfl
  cases h

/-- What stands in front of the first `{{` is escaped as it is. -/
theorem escape_append (h : Free front rest) : (front ++ rest).escape = front ++ rest.escape := by
  induction front with
  | nil => rfl
  | cons c front ih =>
      obtain ⟨hc, hfront⟩ := free_cons h
      rw [List.cons_append, escape_cons hc, ih hfront]
      rfl

theorem startsTag_cons_cons (a b : Char) (t : Text) :
    startsTag (a :: b :: t) = (a == '{' && b == '{') := by
  simp [startsTag, List.isPrefixOf, Bool.beq_comm]

/-- A backslash behind the part starts no tag in it. -/
theorem Free.escaped (h : Free front ('{' :: '{' :: v)) (w : Text) : Free front ('\\' :: w) := by
  intro z hz hsuffix
  have htag := h z hz hsuffix
  match z, hz with
  | [a], _ =>
      show startsTag (a :: '\\' :: w) = false
      rw [startsTag_cons_cons]
      simp
  | a :: b :: z, _ =>
      show startsTag (a :: b :: (z ++ '\\' :: w)) = false
      rw [startsTag_cons_cons, ← startsTag_cons_cons a b]
      exact htag

/-- What ends the text of an escaped tag. -/
theorem exists_of_startsTagOrEscape (h : startsTagOrEscape t = true) :
    ∃ r, t = '{' :: '{' :: r ∨ t = '\\' :: '{' :: '{' :: r ∨
      t = '\\' :: '\\' :: '{' :: '{' :: r := by
  obtain ⟨mark, hmark, r, rfl⟩ := (marks_startsTagOrEscape.iff t).mp h
  simp only [List.mem_cons, List.not_mem_nil, or_false] at hmark
  rcases hmark with rfl | rfl | rfl
  · exact ⟨r, .inl rfl⟩
  · exact ⟨r, .inr (.inl rfl)⟩
  · exact ⟨r, .inr (.inr rfl)⟩

/-- The text of an escaped tag does not end in the part.  A backslash at the end of the part could
make two with a backslash behind it, so there is none. -/
theorem Free.startsTagOrEscape_eq_false (h : Free front v) (hv : startsTag v = false)
    (hend : v ≠ [] → ¬['\\'] <:+ front) {z : Text} (hz : z ≠ []) (hsuffix : z <:+ front) :
    startsTagOrEscape (z ++ v) = false := by
  have hfree : ∀ z, z <:+ front → ∀ r, z ++ v ≠ '{' :: '{' :: r := by
    rintro z hz r heq
    cases z with
    | nil =>
        rw [List.nil_append] at heq
        rw [heq] at hv
        cases hv
    | cons c z =>
        have htag := h (c :: z) (List.cons_ne_nil c z) hz
        rw [heq] at htag
        cases htag
  refine Bool.eq_false_iff.mpr fun hstop => ?_
  obtain ⟨r, heq⟩ := exists_of_startsTagOrEscape hstop
  obtain ⟨c, z, rfl⟩ := List.exists_cons_of_ne_nil hz
  have htail : z <:+ front := (List.suffix_cons c z).trans hsuffix
  rcases heq with heq | heq | heq
  · exact hfree (c :: z) hsuffix r heq
  · exact hfree z htail r (List.cons.inj heq).2
  · cases z with
    | nil =>
        obtain ⟨rfl, rfl⟩ := List.cons.inj heq
        exact hend (List.cons_ne_nil _ _) hsuffix
    | cons d z =>
        exact hfree z ((List.suffix_cons d z).trans htail) r (List.cons.inj (List.cons.inj heq).2).2

/-! ## Scanning an escaped text -/

/-- Pieces of text that make up a text. -/
def IsPieces (ls : List Lexeme) (t : Text) : Prop :=
  ∃ ts : List Text, ls.map Lexeme.token = ts.map Token.content ∧ ts.flatten = t

theorem isPieces_contentLexeme (t : Text) (start stop : Nat) :
    IsPieces (contentLexeme t start stop) t := by
  unfold contentLexeme
  split
  · next h => exact ⟨[], rfl, (List.isEmpty_iff.mp h).symm⟩
  · exact ⟨[t], rfl, List.append_nil t⟩

theorem IsPieces.append {ls ls' : List Lexeme} {t t' : Text} (h : IsPieces ls t)
    (h' : IsPieces ls' t') : IsPieces (ls ++ ls') (t ++ t') := by
  obtain ⟨ts, hls, rfl⟩ := h
  obtain ⟨ts', hls', rfl⟩ := h'
  exact ⟨ts ++ ts', by simp only [List.map_append, hls, hls'], List.flatten_append⟩

/-- No `{{` has a backslash in front of it. -/
def Unescaped (t : Text) : Prop := ¬['\\', '{', '{'] <:+: t

theorem Unescaped.not_suffix (h : Unescaped (front ++ '{' :: '{' :: t)) : ¬['\\'] <:+ front := by
  rintro ⟨r, rfl⟩
  exact h ⟨r, t, by simp⟩

/-- The backslash of an escaped tag may go with the part. -/
theorem Free.concat (h : Free front ('{' :: '{' :: v)) (w : Text) : Free (front ++ ['\\']) w := by
  intro z hz hsuffix
  obtain rfl | ⟨z, rfl, hfront⟩ := List.suffix_concat_iff.mp hsuffix
  · exact absurd rfl hz
  · rw [List.append_assoc]
    cases z with
    | nil => rfl
    | cons c z => exact h.escaped w (c :: z) (List.cons_ne_nil c z) hfront

/-- The text behind an escaped `{{` goes up to the next one. -/
theorem splitBefore_escape (hfree : Free front rest)
    (hrest : rest = [] ∨ ∃ r, rest = '{' :: '{' :: r) (h : Unescaped (front ++ rest)) :
    Text.splitBefore startsTagOrEscape (front ++ rest).escape = (front, rest.escape) := by
  rw [escape_append hfree]
  rcases hrest with rfl | ⟨r, rfl⟩
  · exact splitBefore_eq
      (fun z => hfree.startsTagOrEscape_eq_false rfl fun hne => absurd rfl hne) (.inl rfl)
  · exact splitBefore_eq
      (fun z => (hfree.escaped _).startsTagOrEscape_eq_false rfl fun _ => h.not_suffix) (.inr rfl)

/-- The move that takes an escaped `{{`. -/
theorem textStep_escape {s : State} {inner after : Text}
    (hfront : Free front ('{' :: '{' :: (inner ++ after))) (hinner : Free inner after)
    (hafter : after = [] ∨ ∃ r, after = '{' :: '{' :: r)
    (h : Unescaped (front ++ '{' :: '{' :: (inner ++ after))) :
    ∃ start stop, textStep s (front ++ '{' :: '{' :: (inner ++ after)).escape =
      .moved (contentLexeme front s.offset start ++ contentLexeme ('{' :: '{' :: inner) start stop)
        { s with offset := stop } after.escape := by
  have hmore : Unescaped (inner ++ after) :=
    fun hmark => h (hmark.trans ⟨front ++ ['{', '{'], [], by simp⟩)
  have hinner' := splitBefore_escape hinner hafter hmore
  have hescape : (front ++ '{' :: '{' :: (inner ++ after)).escape =
      (front ++ ['\\']) ++ '{' :: '{' :: (inner ++ after).escape := by
    rw [escape_append hfront, Text.escape, List.append_assoc]
    rfl
  have hsplit : Text.splitBefore startsTag
      ((front ++ ['\\']) ++ '{' :: '{' :: (inner ++ after).escape) =
      (front ++ ['\\'], '{' :: '{' :: (inner ++ after).escape) :=
    splitBefore_eq (hfront.concat _) (.inr rfl)
  have hrest := eq_of_splitBefore hinner'
  rw [hrest] at hinner' hescape hsplit
  rw [hescape]
  exact ⟨_, _, textStep_eq_moved_iff.mpr (.escaped hsplit hinner' h.not_suffix rfl rfl)⟩

/-- A text without a `{{` is one token. -/
theorem scan_of_splitBefore {square : Bool} {s : State} {t : Text} (hmode : s.mode = .text)
    (h : Text.splitBefore startsTag t = (t, [])) :
    scan square s t = ⟨contentLexeme t s.offset (s.offset + t.byteLength), none⟩ := by
  cases t with
  | nil => exact scan_nil (by rw [hmode]; nofun)
  | cons c r =>
      rw [scan_of_step ((step_of_text hmode).trans (TextMove.last (List.cons_ne_nil c r) h).moved),
        scan_nil (by rw [hmode]; nofun), Lexing.prepend, List.append_nil]

/-- The scanner takes an escaped text for pieces of the text.  The induction goes from the end of
one escaped tag to the start of the next. -/
theorem scan_escape (square : Bool) {s : State} (hmode : s.mode = .text) (t : Text)
    (ht : Unescaped t) :
    (scan square s t.escape).fault = none ∧ IsPieces (scan square s t.escape).lexemes t := by
  obtain ⟨front, rest, htext, hfront, rfl | ⟨r, rfl⟩⟩ := exists_of_text t
  · have hescape : t.escape = front := by
      rw [htext, escape_append hfront]
      exact List.append_nil front
    have hsplit : Text.splitBefore startsTag front = (front, []) := by
      have h := splitBefore_eq hfront (.inl rfl)
      rwa [List.append_nil] at h
    rw [hescape, scan_of_splitBefore hmode hsplit, htext, List.append_nil]
    exact ⟨rfl, isPieces_contentLexeme _ _ _⟩
  · obtain ⟨inner, after, rfl, hinner, hafter⟩ := exists_of_text r
    have hlt : after.length < t.length := by
      rw [htext]
      simp only [List.length_append, List.length_cons]
      omega
    have hmore : Unescaped after := fun hmark =>
      ht (hmark.trans ⟨front ++ '{' :: '{' :: inner, [], by rw [htext]; simp⟩)
    rw [htext] at ht ⊢
    obtain ⟨start, stop, hstep⟩ := @textStep_escape front s inner after hfront hinner hafter ht
    obtain ⟨hfault, hpieces⟩ := @scan_escape square { s with offset := stop } hmode after hmore
    rw [scan_of_step ((step_of_text hmode).trans hstep)]
    refine ⟨hfault, ?_⟩
    have h := ((isPieces_contentLexeme front s.offset start).append
      (isPieces_contentLexeme ('{' :: '{' :: inner) start stop)).append hpieces
    rw [List.append_assoc front] at h
    exact h
termination_by t.length

end Scanner

/-! ## Pieces of text -/

namespace Grammar

variable {g : Grammar}

/-- The grammar makes a text of each piece. -/
theorem statements_of_content (ts : List Text) {c : Cursor} (hc : c.tokens = ts.map Token.content) :
    ∃ p, g.statements c = .ok p ∧ p.cursor.rest = [] ∧
      ∃ cs : List Content, p.value = cs.map .content ∧ cs.map Content.value = ts := by
  induction ts generalizing c with
  | nil =>
      have hrest : c.rest = [] := List.map_eq_nil_iff.mp hc
      rw [Grammar.statements, if_neg (by rw [Cursor.peek?_eq, hc]; nofun)]
      exact ⟨_, rfl, hrest, [], rfl, rfl⟩
  | cons t ts ih =>
      obtain ⟨s, c₁, h₁, hnext, hc₁⟩ := Cursor.exists_next? hc
      obtain ⟨p, hp, hrest, cs, hvalue, hcs⟩ := ih hc₁
      have hstatement :
          g.statement c = .ok ⟨g.builder.content t (g.extent s.start c₁), c₁, h₁⟩ := by
        rw [Grammar.statement]
        simp only [hnext]
      rw [Grammar.statements, if_pos (by rw [Cursor.peek?_eq, hc]; rfl), hstatement]
      simp only [bind, Except.bind, hp]
      refine ⟨_, rfl, hrest, .untrimmed t (g.builder.locate (g.extent s.start c₁)) :: cs, ?_,
        congrArg (List.cons t) hcs⟩
      exact congrArg (List.cons _) hvalue

/-- A template of nothing but text. -/
theorem program_of_content {ls : List Lexeme} {ts : List Text}
    (hls : ls.map Lexeme.token = ts.map Token.content) :
    ∃ p, g.program ls = .ok p ∧ ∃ cs : List Content, p.body = cs.map .content ∧
      cs.map Content.value = ts := by
  obtain ⟨⟨body, c, hlt⟩, hp, hrest, hcs⟩ := statements_of_content (g := g) ts
    (c := ⟨⟨0, 0⟩, ls⟩) hls
  refine ⟨Builder.program body none, ?_, hcs⟩
  rw [program, hp]
  exact if_pos (by rw [show c.rest = [] from hrest]; rfl)

end Grammar

namespace Layout

theorem judgeAll_content (i root : Bool) (before : List Statement) (cs : List Content) :
    judgeAll i root before (settleAll i (cs.map .content)) =
      cs.map fun c => (.content c, none) := by
  induction cs generalizing before with
  | nil => rfl
  | cons c cs ih => exact congrArg (List.cons _) (ih (.content c :: before))

theorem align_content (text : Option Content) (cs : List Content) :
    align none text (cs.map fun c => (.content c, none)) = cs.map .content := by
  induction cs generalizing text with
  | nil => rfl
  | cons c cs ih =>
      cases cs with
      | nil => rfl
      | cons d cs => exact congrArg (List.cons _) (ih (some c))

/-- Between texts there is nothing to trim. -/
theorem program_content (i root : Bool) {p : Program} {cs : List Content}
    (hp : p.body = cs.map .content) : program i root p = p := by
  obtain ⟨body, blockParams, chained, loc⟩ := p
  obtain rfl : body = cs.map .content := hp
  show Program.mk (align none none (judgeAll i root [] (settleAll i _))) _ _ _ = _
  rw [judgeAll_content, align_content]

end Layout

/-- **Any text can be escaped.**  For every text in which no `{{` has a backslash right in front of
it, the template with a backslash in front of each `{{` parses, under any options, with its
whitespace normalized or not.  The tree is the same in both cases.  It has no tags, and its texts
are together the text that was escaped. -/
theorem parse_escape (o : Options) {t : Text} (ht : ¬['\\', '{', '{'] <:+: t) :
    ∃ p cs, parseRaw o t.escape = .ok p ∧ parse o t.escape = .ok p ∧
      p.body = List.map Statement.content cs ∧ cs.flatMap Content.value = t := by
  obtain ⟨hfault, ts, htokens, hflatten⟩ :=
    Scanner.scan_escape o.brackets.isList (s := .initial) rfl t ht
  obtain ⟨p, hp, cs, hbody, hvalues⟩ := (o.grammar t.escape).program_of_content htokens
  have hraw : parseRaw o t.escape = .ok p := by
    have hparse :
        (o.grammar t.escape).parse (tokenize o.brackets.isList t.escape).lexemes = .ok p := by
      rw [Grammar.parse, tokenize, hp]
    rw [parseRaw, show (tokenize o.brackets.isList t.escape).fault = none from hfault]
    simp only [hparse]
  have hnormalize : normalize o p = p := Layout.program_content _ _ hbody
  refine ⟨p, cs, hraw, ?_, hbody, ?_⟩
  · rw [parse, hraw]
    exact congrArg Except.ok hnormalize
  · rw [← hflatten, ← hvalues, List.flatMap_def]

/-- The text `\x{{{{a}}{`, with four braces in a row and a lone backslash. -/
def bracedText : Text := ['\\', 'x', '{', '{', '{', '{', 'a', '}', '}', '{']

example : bracedText.escape =
    ['\\', 'x', '\\', '{', '{', '\\', '{', '{', 'a', '}', '}', '{'] := by decide

/-- It can be escaped. -/
theorem parse_escape_bracedText : ¬['\\', '{', '{'] <:+: bracedText ∧
    ∃ p cs, parseRaw {} bracedText.escape = .ok p ∧ parse {} bracedText.escape = .ok p ∧
      p.body = List.map Statement.content cs ∧ cs.flatMap Content.value = bracedText := by
  have ht : ¬['\\', '{', '{'] <:+: bracedText := by decide
  exact ⟨ht, parse_escape {} ht⟩

end Stache
