import Mathlib
import Stache.Parse
import Stache.Proofs.Grammar.Onward
import Stache.Proofs.Token.Partial

/-!
# Errors in front of a fault

Tokens that end with a tag are refused for something that no more tokens can mend, unless
they only end too early.  So what is wrong in front of a fault of the scanner can be reported in
its place: it is wrong whatever stands there, as long as the tag keeps its tokens
(`parse_prefixStable`).

It does not keep them in front of every text.  A brace behind the tag joins its closer, and a
string that only an escaped quote closes goes on to the next plain one.  And a token list that no
text gives, with a `*` in the delimiter of an else chain, is refused for one thing where it ends
and for another where it goes on (`not_prefixStable`).
-/

namespace Stache

/-! ## Finished tokens -/

namespace Lexing

theorem finished_isPrefix (l : Lexing) : l.finished <+: l.lexemes := by
  have hsuffix := List.dropWhile_suffix (l := l.lexemes.reverse) fun x => !x.token.endsTag
  have hfront := List.reverse_prefix.mpr hsuffix
  rwa [List.reverse_reverse] at hfront

/-- The finished tokens end with a tag, if there are any. -/
theorem endsTag_of_finished (l : Lexing) : ∀ x ∈ l.finished.getLast?, x.token.endsTag = true := by
  intro x hx
  rw [finished, List.getLast?_reverse] at hx
  have hnot := List.head?_dropWhile_not (fun x : Lexeme => !x.token.endsTag) l.lexemes.reverse
  rw [hx] at hnot
  simpa using hnot

/-- Tokens that end with a tag are finished wherever they begin the tokens. -/
theorem isPrefix_finished {l : Lexing} {ls : List Lexeme}
    (hend : ∀ x ∈ ls.getLast?, x.token.endsTag = true) (h : ls <+: l.lexemes) :
    ls <+: l.finished := by
  obtain ⟨us, hus⟩ := h
  have hkeep : ls.reverse.dropWhile (fun x => !x.token.endsTag) = ls.reverse := by
    cases hls : ls.reverse with
    | nil => rfl
    | cons x xs =>
        have hx : ls.getLast? = some x := by rw [← List.head?_reverse, hls]; rfl
        rw [List.dropWhile_cons_of_neg]
        rw [hend x hx]
        nofun
  rw [finished, ← hus, List.reverse_append, List.dropWhile_append]
  split
  · exact ⟨[], by rw [hkeep, List.reverse_reverse, List.append_nil]⟩
  · rw [List.reverse_append, List.reverse_reverse]
    exact List.prefix_append _ _

end Lexing

namespace Grammar

variable {K : Cut} {g g' : Grammar} {m : Stage} {ls us : List Lexeme}

theorem inTag_next {t : Token} (h : t.endsTag = true) : (m.next t).site.inTag = false := by
  cases t <;> first | rfl | cases h

theorem startsPair_of_endsTag {t : Token} {ts : List Token} (h : t.endsTag = true) :
    startsPair (t :: ts) = false := by
  cases t <;> first | rfl | cases h

/-- Up to the end of a tag two lists are the same, and behind it one begins the other. -/
theorem begins_behind {whole : Bool} {x : Lexeme} {ks : List Lexeme}
    (hx : x.token.endsTag = true) (h : ∀ m : Stage, Begins whole (m.next x.token) ks us) :
    Begins whole m (ls ++ x :: ks) (ls ++ x :: us) := by
  induction ls generalizing m with
  | nil => exact .token (fun _ _ => startsPair_of_endsTag hx) (h m)
  | cons l ls ih =>
      exact .token (fun _ hnil => absurd hnil (List.append_ne_nil_of_right_ne_nil ls nofun)) ih

/-- Tokens that end with a tag begin every list that goes on from them. -/
theorem begins_append {whole : Bool} (hend : ∀ l ∈ ls.getLast?, l.token.endsTag = true)
    (hm : ls = [] → m.site.inTag = false) : Begins whole m ls (ls ++ us) := by
  rcases List.eq_nil_or_concat ls with rfl | ⟨front, x, rfl⟩
  · exact .stop fun _ => hm rfl
  · rw [List.concat_eq_append] at hend ⊢
    have hx : x.token.endsTag = true := hend x (by rw [List.getLast?_concat]; rfl)
    rw [List.append_assoc]
    exact begins_behind hx fun m => .stop fun _ => inTag_next hx

/-- No finished token reaches behind the last one. -/
theorem Lexing.stop_le_of_finished {square : Bool} {s text : Text}
    (hend : ∀ l ∈ (tokenize square text).finished.getLast?, l.span.stop = s.byteLength) :
    ∀ l ∈ (tokenize square text).finished,
      l.span.start ≤ s.byteLength ∧ l.span.stop ≤ s.byteLength := by
  intro l hl
  have hfront := (tokenize square text).finished_isPrefix
  have hlaid := Scanner.laid_scan square .initial text rfl
  have hpair := hlaid.ordered.sublist hfront.sublist
  have hspan := hlaid.start_le_stop l (hfront.mem hl)
  rcases List.eq_nil_or_concat (tokenize square text).finished with hnil | ⟨before, y, hlast⟩
  · rw [hnil] at hl
    cases hl
  rw [hlast, List.concat_eq_append] at hl hpair hend
  have hy : y.span.stop = s.byteLength := hend y (by rw [List.getLast?_concat]; rfl)
  rcases List.mem_append.mp hl with hl | hl
  · have hstart := (List.pairwise_append.mp hpair).2.2 l hl y (List.mem_singleton_self y)
    have hyspan := hlaid.start_le_stop y (hfront.mem (by rw [hlast]; simp))
    omega
  · obtain rfl := List.mem_singleton.mp hl
    omega

/-- **The tokens up to the end of a tag stay as they are** in front of a text that starts with no
brace, if none of their strings may be closed by an escaped quote. -/
theorem Lexing.finished_isPrefix_append {square : Bool} {s t u : Text}
    (hend : ∀ l ∈ (tokenize square (s ++ t)).finished.getLast?, l.span.stop = s.byteLength)
    (hu : u.head? ≠ some '}')
    (hquote : ∀ quote, quote = '\x22' ∨ quote = '\x27' → ¬['\\', quote] <:+: s) :
    (tokenize square (s ++ t)).finished <+: (tokenize square (s ++ u)).lexemes := by
  have hfinished := (tokenize square (s ++ t)).endsTag_of_finished
  obtain ⟨after, hafter⟩ := (tokenize square (s ++ t)).finished_isPrefix
  rcases List.eq_nil_or_concat (tokenize square (s ++ t)).finished with hnil | ⟨before, y, hlast⟩
  · rw [hnil]
    exact List.nil_prefix
  rw [hlast, List.concat_eq_append] at hafter hend hfinished ⊢
  have hy : y ∈ (before ++ [y]).getLast? := by
    rw [List.getLast?_concat]
    rfl
  rw [List.append_assoc] at hafter
  obtain ⟨s', r, hcloses, hoffset, -⟩ :=
    Scanner.exists_closes_of_eq square .initial (s ++ t) hafter.symm (hfinished y hy)
  obtain ⟨w, hw, -, hlength⟩ := hcloses.exists_append
  have hle : w.byteLength = s.byteLength := by
    rw [hoffset, hend y hy] at hlength
    exact (Nat.zero_add _).symm.trans hlength.symm
  obtain ⟨m, rfl, rfl⟩ := Text.exists_of_append_eq_append hw.symm (Nat.le_of_eq hle)
  obtain rfl : m = [] := Text.eq_nil_of_byteLength (by
    rw [Text.byteLength_append] at hle
    omega)
  rw [List.append_nil] at hcloses hquote ⊢
  have hcut := hcloses.swap (.cut (List.nil_prefix (l := t)))
  have hjoined := hcut.swap (.extend rfl hu hquote)
  rw [tokenize, hjoined.scan_eq]
  exact List.prefix_append _ _

/-! ## Reports -/

/-- What points at shared tokens is shown at the same place, except where the tokens end. -/
theorem diagnostic_eq (hg : Shares K g g') {r : Refusal} (h : Placed K r)
    {source : Option String} {ls ls' : List Lexeme}
    (hcode : (r.diagnostic g.text source ls).code ≠ some .incompleteInput) :
    r.diagnostic g'.text source ls' = r.diagnostic g.text source ls := by
  have hlocation : ∀ {span : Span}, K.shared span.start → K.shared span.stop →
      Source.location g'.text source span = Source.location g.text source span := by
    intro span hstart hstop
    exact congrArg (fun x : Extent => Location.mk source x.start x.stop) (hg.extent hstart hstop)
  cases r with
  | rejected e => rfl
  | mismatch expected since found =>
      cases found with
      | none => exact absurd rfl hcode
      | some s =>
          obtain ⟨hstart, hstop⟩ := h s (.inr rfl)
          have hsince : K.shared (since.getD s).start ∧ K.shared (since.getD s).stop := by
            cases since with
            | none => exact ⟨hstart, hstop⟩
            | some s' => exact h s' (.inl rfl)
          have hunion : K.shared ((since.getD s).union s).start ∧
              K.shared ((since.getD s).union s).stop := by
            unfold Span.union
            dsimp only
            constructor
            · rcases Nat.le_total (since.getD s).start s.start with h | h
              · exact (Nat.min_eq_left h).symm ▸ hsince.1
              · exact (Nat.min_eq_right h).symm ▸ hstart
            · rcases Nat.le_total (since.getD s).stop s.stop with h | h
              · exact (Nat.max_eq_right h).symm ▸ hstop
              · exact (Nat.max_eq_left h).symm ▸ hsince.2
          simp only [Refusal.diagnostic, hlocation hunion.1 hunion.2]

/-- Tokens that end with a tag are refused for the same in front of more tokens. -/
theorem parse_append (hg : Shares K g g') (hwhole : K.whole = true)
    (htokens : K.tokens = tokensOf ls) (hzero : K.shared 0)
    (hend : ∀ l ∈ ls.getLast?, l.token.endsTag = true)
    (hshared : ∀ l ∈ ls, K.shared l.span.start ∧ K.shared l.span.stop) {d : Diagnostic}
    (h : g.parse ls = .error d) (hcode : d.code ≠ some .incompleteInput) :
    g'.parse (ls ++ us) = .error d ∨
      (d.code = some .inverseOnDecorator ∨ d.code = some .brokenChain) ∧ Starred (tokensOf ls) := by
  obtain ⟨r, hprogram, rfl⟩ := exists_refusal_of_parse h
  rcases follows_program hg htokens hzero hshared (begins_append hend fun _ => rfl) hprogram with
    hout | ⟨r', hr', heq⟩
  · cases r with
    | rejected e =>
        right
        show (e.diagnostic.code = _ ∨ e.diagnostic.code = _) ∧ _
        rw [code_diagnostic, ← htokens]
        exact ⟨hout.1.imp (congrArg some) (congrArg some), hout.2⟩
    | mismatch expected since found =>
        obtain rfl : found = none := hout
        exact absurd rfl hcode
  · obtain ⟨rfl, hplaced⟩ := heq hwhole
    left
    rw [parse, hr', hg.builder]
    exact congrArg Except.error (diagnostic_eq hg hplaced hcode)

end Grammar

open Grammar

/-- What the grammar makes of some finished tokens is reported, whatever stands behind them. -/
theorem parseRaw_of_finished {o : Options} {text : Text} {d : Diagnostic} {ls : List Lexeme}
    (hend : ∀ l ∈ ls.getLast?, l.token.endsTag = true)
    (hfront : ls <+: (tokenize o.brackets.isList text).lexemes)
    (hparse : ∀ us, (o.grammar text).parse (ls ++ us) = .error d)
    (hcode : d.code ≠ some .incompleteInput) : parseRaw o text = .error (.one d) := by
  rw [parseRaw]
  split
  · obtain ⟨us, hus⟩ := Lexing.isPrefix_finished hend hfront
    rw [lexicalReport, ← hus, hparse us]
    exact congrArg (fun d => Except.error (ParseFailure.one d)) (if_neg hcode)
  · obtain ⟨us, hus⟩ := hfront
    rw [← hus, hparse us]

/-- **An error in front of more tokens is the same error.**  Tokens that end with a tag and are
refused for something else than that they end are refused for it in front of any tokens.  Only
an else chain with a `*` in a delimiter may be refused for something behind it, and the tokens
of a template have none.

So what is wrong with the tokens of a text `s ++ t` up to its last finished tag, at the end of
`s`, is reported.  It is reported in `s ++ u` too if the tokens up to this tag are the same there,
as they are if `u` starts with no brace and no quote in `s` is escaped. -/
theorem parse_prefixStable :
    (∀ (g : Grammar) (ls us : List Lexeme) (d : Diagnostic),
      (∀ l ∈ ls.getLast?, l.token.endsTag = true) → g.parse ls = .error d →
      d.code ≠ some .incompleteInput →
        g.parse (ls ++ us) = .error d ∨
          (d.code = some .inverseOnDecorator ∨ d.code = some .brokenChain) ∧
            Starred (tokensOf ls)) ∧
    (∀ square text, ¬Starred (tokensOf (tokenize square text).lexemes)) ∧
    ∀ (o : Options) (s t : Text) (d : Diagnostic),
      let lexing := tokenize o.brackets.isList (s ++ t)
      (∀ l ∈ lexing.finished.getLast?, l.span.stop = s.byteLength) →
      (o.grammar (s ++ t)).parse lexing.finished = .error d → d.code ≠ some .incompleteInput →
        parseRaw o (s ++ t) = .error (.one d) ∧
          ∀ u, lexing.finished <+: (tokenize o.brackets.isList (s ++ u)).lexemes ∨
              u.head? ≠ some '}' ∧
                (∀ quote, quote = '\x22' ∨ quote = '\x27' → ¬['\\', quote] <:+: s) →
            parseRaw o (s ++ u) = .error (.one d) := by
  refine ⟨fun g ls us d hend h hcode => ?_, not_starred_tokenize, ?_⟩
  · have hg : Shares ⟨true, fun _ => True, tokensOf ls⟩ g g := ⟨rfl, fun _ _ => rfl, fun _ _ => rfl⟩
    exact parse_append hg rfl rfl trivial hend (fun _ _ => ⟨trivial, trivial⟩) h hcode
  · intro o s t d lexing hlast h hcode
    have hend := lexing.endsTag_of_finished
    have hfront := lexing.finished_isPrefix
    have hstarred : ¬Starred (tokensOf lexing.finished) := fun h =>
      not_starred_tokenize _ _ (h.mono (hfront.map Lexeme.token).subset)
    have hparse : ∀ v us, (o.grammar (s ++ v)).parse (lexing.finished ++ us) = .error d :=
      fun v us => by
        have hg : Shares ⟨true, (· ≤ s.byteLength), tokensOf lexing.finished⟩ (o.grammar (s ++ t))
          (o.grammar (s ++ v)) := shares_append (.ofOptions o) t v id
        rcases parse_append hg rfl rfl (Nat.zero_le _) hend (Lexing.stop_le_of_finished hlast) h
          hcode with h | ⟨-, h⟩
        · exact h
        · exact absurd h hstarred
    refine ⟨parseRaw_of_finished hend hfront (hparse t) hcode, fun u hu => ?_⟩
    have hfront' := hu.elim id fun hu => Lexing.finished_isPrefix_append hlast hu.1 hu.2
    exact parseRaw_of_finished hend hfront' (hparse u) hcode

/-- The text `{{#a}}{{/b}}`. -/
def mismatchedTemplate : Text := "\x7b\x7b#a\x7d\x7d\x7b\x7b/b\x7d\x7d".toList

/-- The report of `mismatchedTemplate`. -/
def mismatchedReport : Diagnostic :=
  (BuildError.mismatchedClose ['a'] ⟨none, ⟨1, 3⟩, ⟨1, 4⟩⟩ ['b']
    (some ⟨none, ⟨1, 9⟩, ⟨1, 10⟩⟩)).diagnostic

/-- The last tag in front of a comment without its end is the closing one. -/
theorem stop_finished_mismatchedTemplate : ∀ l ∈
    (tokenize false (mismatchedTemplate ++ ['{', '{', '!'])).finished.getLast?,
    l.span.stop = mismatchedTemplate.byteLength := by
  have hlast : (tokenize false (mismatchedTemplate ++ ['{', '{', '!'])).finished.getLast? =
      some ⟨.closer ['}', '}'], ⟨10, 12⟩⟩ := by cbv
  intro l hl
  rw [hlast] at hl
  cases hl
  cbv

/-- A block that is closed under another name, in front of a comment without its end and in
front of a tag without its end. -/
theorem parseRaw_mismatchedTemplate :
    mismatchedReport.code = some .mismatchedClose ∧
      parseRaw {} (mismatchedTemplate ++ ['{', '{', '!']) = .error (.one mismatchedReport) ∧
      parseRaw {} (mismatchedTemplate ++ ['x', '{', '{', 'y']) = .error (.one mismatchedReport) := by
  have hquote : ∀ quote, quote = '\x22' ∨ quote = '\x27' →
      ¬['\\', quote] <:+: mismatchedTemplate := fun quote _ hwithin => by
    have hnot : '\\' ∉ mismatchedTemplate := by decide
    exact hnot (hwithin.mem List.mem_cons_self)
  have hreported := parse_prefixStable.2.2 {} mismatchedTemplate ['{', '{', '!'] mismatchedReport
    stop_finished_mismatchedTemplate (by cbv) (by decide)
  exact ⟨by decide, hreported.1, hreported.2 _ (.inr ⟨by decide, hquote⟩)⟩

/-- The tokens of `{{#a}}{{else*b}}{{else}}`, if a `*` could stand in the delimiter of a link. -/
def starredChain : List Lexeme :=
  [⟨.opener .block "\x7b\x7b#".toList, ⟨0, 3⟩⟩, ⟨.ident ['a'], ⟨3, 4⟩⟩,
    ⟨.closer ['}', '}'], ⟨4, 6⟩⟩, ⟨.opener .chain "\x7b\x7belse*".toList, ⟨6, 13⟩⟩,
    ⟨.ident ['b'], ⟨13, 14⟩⟩, ⟨.closer ['}', '}'], ⟨14, 16⟩⟩,
    ⟨.elseTag "\x7b\x7belse\x7d\x7d".toList, ⟨16, 24⟩⟩]

/-- The tokens of `{{}}` behind `starredChain`. -/
def emptyTag : List Lexeme :=
  [⟨.opener .plain ['{', '{'], ⟨24, 26⟩⟩, ⟨.closer ['}', '}'], ⟨26, 28⟩⟩]

/-- Not every list of tokens and not every text that the scanner stops in keeps its error.  In
front of a tag without a name `starredChain` is refused for this tag.  In front of a brace
`mismatchedTemplate` ends with a `}}}` where a `}}` is asked for. -/
theorem not_prefixStable :
    (¬∀ (g : Grammar) (ls us : List Lexeme) (d : Diagnostic),
      (∀ l ∈ ls.getLast?, l.token.endsTag = true) → g.parse ls = .error d →
      d.code ≠ some .incompleteInput → g.parse (ls ++ us) = .error d) ∧
    ¬∀ (o : Options) (s t u : Text) (d : Diagnostic),
      let lexing := tokenize o.brackets.isList (s ++ t)
      lexing.fault.isSome = true →
      (∀ l ∈ lexing.finished.getLast?, l.span.stop = s.byteLength) →
      (o.grammar (s ++ t)).parse lexing.finished = .error d → d.code ≠ some .incompleteInput →
        parseRaw o (s ++ u) = .error (.one d) := by
  constructor
  · intro hall
    have hchain : (Grammar.parse (Options.grammar {} []) starredChain).mapError Diagnostic.code =
        .error (some .inverseOnDecorator) := by cbv
    have hlonger : (Grammar.parse (Options.grammar {} []) (starredChain ++ emptyTag)).mapError
        Diagnostic.code = .error (some .unexpectedToken) := by cbv
    have hends : ∀ l ∈ starredChain.getLast?, l.token.endsTag = true := fun l hl => by
      cases hl
      rfl
    cases hd : Grammar.parse (Options.grammar {} []) starredChain with
    | ok p =>
        rw [hd] at hchain
        cases hchain
    | error d =>
        rw [hd] at hchain
        have hcode : d.code = some .inverseOnDecorator := Except.error.inj hchain
        rw [hall _ _ _ d hends hd (by rw [hcode]; decide)] at hlonger
        cases hcode.symm.trans (Except.error.inj hlonger)
  · intro hall
    have hbrace : (parseRaw {} (mismatchedTemplate ++ ['}', '{', '{', '!'])).mapError
        (fun f => f.diagnostics.map Diagnostic.code) = .error [some .unexpectedToken] := by cbv
    rw [hall {} mismatchedTemplate ['{', '{', '!'] ['}', '{', '{', '!'] mismatchedReport
      (by cbv) stop_finished_mismatchedTemplate (by cbv) (by decide)] at hbrace
    cases Except.error.inj hbrace

end Stache
