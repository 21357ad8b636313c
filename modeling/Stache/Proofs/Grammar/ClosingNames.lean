import Stache.Proofs.Grammar.Bodies
import Stache.Proofs.Grammar.PathTexts

/-!
# The names in closing tags

A block is closed under the name that opened it.  The builder compares the two as texts: that
of the path in the opening tag, without its brackets, with that of whatever stands in the
closing tag.  So the closing tag need not hold a path, and a path there need not be the same
one.  It is, if the two have the same brackets, or the names in brackets are read the same
without them (`closed_of_parseRaw`).
-/

namespace Stache

/-- What a block or a partial with a body invokes. -/
def Statement.opened? : Statement → Option Call
  | .block node | .decoratorBlock node => some node.call
  | .inclusionBlock node => some node.call
  | _ => none

/-- The text of an expression in a closing tag, as the builder compares it. -/
def Expr.closingText (e : Expr) : Text := e.written?.getD "undefined".toList

namespace Builder

theorem exists_of_checkClose {opened closed : Expr} {closedAt : Option Location}
    (h : checkClose opened closed.written? closedAt = .ok ()) :
    ∃ p, opened = .path p ∧ p.written = closed.closingText := by
  unfold checkClose at h
  split at h
  · next p =>
      dsimp only at h
      split at h
      · next heq => exact ⟨p, rfl, heq⟩
      · cases h
  · cases h

end Builder

namespace Grammar

variable {g : Grammar} {own : List Lexeme} {s : Statement} {called : Call}

/-- The tokens of a block are its opening tag with the path `p`, the tokens `ls`, and its
closing tag with the expression `closed`, the tokens `ls'`. -/
structure Closes (g : Grammar) (own ls ls' : List Lexeme) (p : Path) (closed : Expr) : Prop where
  tokens : ∃ opening names mid opener span closer span',
    own = opening :: (ls ++ (names ++ (mid ++ tag .close opener span ls' closer span')))
  opens : g.WritesExpr ls (.path p)
  closes : g.WritesExpr ls' closed
  text : p.written = closed.closingText

theorem closes_of_writesOpening {kind : Opener} {ls mid ls' : List Lexeme} {head : BlockOpening}
    {tail : BlockClosing} (hhead : g.WritesOpening kind ls head) (htail : g.WritesClosing ls' tail)
    (hcheck : ∀ closed, tail.path = some closed →
      ∃ p, head.call.head = .path p ∧ p.written = closed.closingText) :
    ∃ ls₁ ls₂ p closed, head.call.head = .path p ∧
      g.Closes (ls ++ (mid ++ ls')) ls₁ ls₂ p closed := by
  cases hhead with
  | @mk opener closer span span' ls names called params hcall hnames _ =>
      cases hcall with
      | @mk ls₁ ls' ls'' e _ _ he hparams hpairs =>
          cases htail with
          | @mk opener' closer' span₂ span₂' ls₂ closed hclosed =>
              obtain ⟨p, rfl, htext⟩ := hcheck closed rfl
              refine ⟨ls₁, ls₂, p, closed, rfl, ⟨⟨⟨.opener kind opener, span⟩,
                ls' ++ (ls'' ++ (names ++ [⟨.closer closer, span'⟩])), mid, opener', span₂,
                closer', span₂', ?_⟩, he, hclosed, htext⟩⟩
              simp only [tag, List.cons_append, List.append_assoc, List.nil_append]

/-- A block that does not start as a raw one is closed under the name that opened it. -/
theorem exists_closes (h : g.WritesStatement own s) (hs : s.opened? = some called) :
    (∃ span rest, own = ⟨.rawOpener, span⟩ :: rest) ∨
      ∃ ls ls' p closed, called.head = .path p ∧ g.Closes own ls ls' p closed := by
  cases h with
  | content | comment | inclusion => cases hs
  | plain h | unescaped h =>
      obtain ⟨escaped, hm | hm⟩ := g.builder.exists_of_mustache _ _ _ _ <;>
        rw [hm] at hs <;> cases hs
  | rawBlock => exact .inl ⟨_, _, rfl⟩
  | @block inverted ls ls' ls'' ls''' head body other tail _ hhead hbody hother htail hblock =>
      obtain ⟨_, _, node, -, hnode, rfl⟩ := Builder.exists_of_block hblock
      have hcalled : head.call = called := by
        rcases hnode with rfl | rfl <;> exact Option.some.inj hs
      subst hcalled
      have hcheck : ∀ closed, tail.path = some closed →
          ∃ p, head.call.head = .path p ∧ p.written = closed.closingText := by
        intro closed hclosed
        rw [Builder.block] at hblock
        simp only [Option.bind_some, hclosed] at hblock
        obtain ⟨_, hcheck, -⟩ := exists_of_bind_eq_ok hblock
        exact Builder.exists_of_checkClose hcheck
      have htokens : ls' ++ (ls'' ++ ls''') = (ls' ++ ls'') ++ ls''' :=
        (List.append_assoc ..).symm
      rw [htokens]
      exact .inr (closes_of_writesOpening hhead htail hcheck)
  | @inclusionBlock ls ls' ls'' head body tail _ hhead hbody htail hblock =>
      obtain rfl := Builder.eq_of_inclusionBlock hblock
      obtain rfl : head.call = called := Option.some.inj hs
      refine .inr (closes_of_writesOpening hhead htail fun closed hclosed => ?_)
      obtain ⟨_, hcheck, -⟩ := exists_of_bind_eq_ok hblock
      rw [hclosed] at hcheck
      exact Builder.exists_of_checkClose hcheck

end Grammar

/-- **A block is closed under the text of the path that opened it.**  Every block and every
partial with a body that has a closing tag is opened with a path, and what stands in the closing
tag has the text of this path.  If it is a path as well, the two are equal up to places, as long
as they have the same segments or these show in that text. -/
theorem closed_of_parseRaw {o : Options} {text : Text} {p q : Program} {s : Statement}
    {called : Call} (h : parseRaw o text = .ok p) (hq : (Node.program q).Within (.program p))
    (hchained : q.chained = false) (hs : s ∈ q.body) (hcalled : s.opened? = some called) :
    ∃ before own after, (tokenize o.brackets.isList text).lexemes = before ++ (own ++ after) ∧
      (o.grammar text).WritesStatement own s ∧
      ((∃ span rest, own = ⟨.rawOpener, span⟩ :: rest) ∨
        ∃ ls ls' path closed, called.head = .path path ∧
          (o.grammar text).Closes own ls ls' path closed ∧
          (o.Literal → ∀ path', closed = .path path' →
            ∃ segments segments', (o.grammar text).WritesPath ls segments path ∧
              (o.grammar text).WritesPath ls' segments' path' ∧
              ((segments' = segments ∨ (∀ s ∈ segments, s.Clear) ∧ ∀ s ∈ segments', s.Clear) →
                path'.unlocated = path.unlocated))) := by
  obtain ⟨before, own, after, hlexemes, hown⟩ := exists_of_mem_body h hq hchained hs
  refine ⟨before, own, after, hlexemes, hown, ?_⟩
  rcases Grammar.exists_closes hown hcalled with hraw | ⟨ls, ls', path, closed, hhead, hcloses⟩
  · exact .inl hraw
  refine .inr ⟨ls, ls', path, closed, hhead, hcloses, fun ho path' hclosed => ?_⟩
  subst hclosed
  obtain ⟨segments, hpath⟩ := Grammar.exists_writesPath (ho.grammar text) hcloses.opens
  obtain ⟨segments', hpath'⟩ := Grammar.exists_writesPath (ho.grammar text) hcloses.closes
  refine ⟨segments, segments', hpath, hpath', fun hsegments => ?_⟩
  obtain ⟨opening, names, mid, opener, span, closer, span', rfl⟩ := hcloses.tokens
  have hfront : (tokenize o.brackets.isList text).lexemes = (before ++ [opening]) ++
      (ls ++ (names ++ (mid ++ Grammar.tag .close opener span ls' closer span') ++ after)) := by
    rw [hlexemes]
    simp only [List.append_assoc, List.cons_append, List.nil_append]
  have hback : (tokenize o.brackets.isList text).lexemes =
      (before ++ opening :: (ls ++ (names ++ (mid ++ [⟨.opener .close opener, span⟩])))) ++
        (ls' ++ (⟨.closer closer, span'⟩ :: after)) := by
    rw [hlexemes]
    simp only [Grammar.tag, List.append_assoc, List.cons_append, List.nil_append]
  exact Grammar.unlocated_of_writesPath (ho.grammar text) hfront hback hpath hpath' hsegments
    hcloses.text.symm

/-- The template `{{#a.b}}x{{/[a.b]}}`. -/
def dottedName : Text := "\x7b\x7b#a.b\x7d\x7dx\x7b\x7b/[a.b]\x7d\x7d".toList

/-- The template `{{#a}}x{{/\"a\"}}`. -/
def quotedName : Text := "\x7b\x7b#a\x7d\x7dx\x7b\x7b/\x22a\x22\x7d\x7d".toList

/-- A path of two segments may be closed by one of a single segment in brackets, and any path by
a string. -/
theorem closingNames_ne :
    (∃ p node path ls ls' path', parseRaw {} dottedName = .ok p ∧ p.body = [.block node] ∧
      node.call.head = .path path ∧
      (Options.grammar {} dottedName).Closes (tokenize false dottedName).lexemes ls ls' path
        (.path path') ∧ path.tail ≠ path'.tail) ∧
    ∃ p node path ls ls' value loc, parseRaw {} quotedName = .ok p ∧ p.body = [.block node] ∧
      node.call.head = .path path ∧
      (Options.grammar {} quotedName).Closes (tokenize false quotedName).lexemes ls ls' path
        (.string value value loc) := by
  have hdotted : (tokenize false dottedName).lexemes =
      [⟨.opener .block "\x7b\x7b#".toList, ⟨0, 3⟩⟩, ⟨.ident ['a'], ⟨3, 4⟩⟩,
        ⟨.separator .dot, ⟨4, 5⟩⟩, ⟨.ident ['b'], ⟨5, 6⟩⟩, ⟨.closer "\x7d\x7d".toList, ⟨6, 8⟩⟩,
        ⟨.content ['x'], ⟨8, 9⟩⟩, ⟨.opener .close "\x7b\x7b/".toList, ⟨9, 12⟩⟩,
        ⟨.ident "[a.b]".toList, ⟨12, 17⟩⟩, ⟨.closer "\x7d\x7d".toList, ⟨17, 19⟩⟩] := by
    cbv
  have hquoted : (tokenize false quotedName).lexemes =
      [⟨.opener .block "\x7b\x7b#".toList, ⟨0, 3⟩⟩, ⟨.ident ['a'], ⟨3, 4⟩⟩,
        ⟨.closer "\x7d\x7d".toList, ⟨4, 6⟩⟩, ⟨.content ['x'], ⟨6, 7⟩⟩,
        ⟨.opener .close "\x7b\x7b/".toList, ⟨7, 10⟩⟩, ⟨.string ['a'], ⟨10, 13⟩⟩,
        ⟨.closer "\x7d\x7d".toList, ⟨13, 15⟩⟩] := by
    cbv
  rw [hdotted, hquoted]
  refine ⟨⟨_, _, _, [⟨.ident ['a'], ⟨3, 4⟩⟩, ⟨.separator .dot, ⟨4, 5⟩⟩, ⟨.ident ['b'], ⟨5, 6⟩⟩],
    [⟨.ident "[a.b]".toList, ⟨12, 17⟩⟩],
    ⟨false, false, 0, some (.segment "a.b".toList), [], "a.b".toList, ⟨none, ⟨1, 12⟩, ⟨1, 17⟩⟩⟩,
    by cbv, by rfl, by rfl,
    ⟨⟨_, [⟨.closer _, _⟩], [⟨.content _, _⟩], _, _, _, _, by rfl⟩, ?_, ?_, ?_⟩, ?_⟩,
    ⟨_, _, _, [⟨.ident ['a'], ⟨3, 4⟩⟩], [⟨.string ['a'], ⟨10, 13⟩⟩], ['a'],
    ⟨none, ⟨1, 10⟩, ⟨1, 13⟩⟩, by cbv, by rfl, by rfl,
    ⟨⟨_, [⟨.closer _, _⟩], [⟨.content _, _⟩], _, _, _, _, by rfl⟩, ?_, ?_, ?_⟩⟩⟩
  · exact .path (.mk (.cons .nil)) (by rfl)
  · exact .path (.mk .nil) (by rfl)
  · rfl
  · decide
  · exact .path (.mk .nil) (by rfl)
  · exact .string
  · rfl

/-- The template `{{#a.[b]}}x{{/a.b}}`. -/
def bracketedName : Text := "\x7b\x7b#a.[b]\x7d\x7dx\x7b\x7b/a.b\x7d\x7d".toList

/-- Its block is closed under the text of the path that opened it. -/
theorem closed_bracketedName : ∃ p node path, parseRaw {} bracketedName = .ok p ∧
    p.body = [.block node] ∧ node.call.head = .path path ∧ path.written = "a.b".toList ∧
    ∃ own ls ls' closed, (Options.grammar {} bracketedName).Closes own ls ls' path closed := by
  obtain ⟨p, node, path, hp, hchained, hbody, hpath, hwritten⟩ : ∃ p node path,
      parseRaw {} bracketedName = .ok p ∧ p.chained = false ∧ p.body = [.block node] ∧
      node.call.head = .path path ∧ path.written = "a.b".toList :=
    ⟨_, _, _, by cbv, by rfl, by rfl, by rfl, by rfl⟩
  have hmem : Statement.block node ∈ p.body := by
    rw [hbody]
    exact List.mem_singleton_self _
  obtain ⟨before, own, after, hlexemes, -, hclosed⟩ :=
    closed_of_parseRaw hp .refl hchained hmem rfl
  have hplain : (tokenize false bracketedName).lexemes.all (fun l => l.token != .rawOpener) =
      true := by cbv
  rcases hclosed with ⟨span, rest, rfl⟩ | ⟨ls, ls', path', closed, hhead, hcloses, -⟩
  · have hmem : ⟨.rawOpener, span⟩ ∈ (tokenize false bracketedName).lexemes := by
      rw [show (tokenize false bracketedName).lexemes = _ from hlexemes]
      exact List.mem_append_right before List.mem_cons_self
    exact absurd (List.all_eq_true.mp hplain _ hmem) (by simp)
  · obtain rfl := Expr.path.inj (hpath.symm.trans hhead)
    exact ⟨p, node, path, hp, hbody, hpath, hwritten, own, ls, ls', closed, hcloses⟩

end Stache
