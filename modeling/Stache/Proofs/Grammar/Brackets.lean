import Stache.Proofs.Grammar.Mirrored
import Stache.Proofs.Grammar.ReadBack
import Stache.Proofs.Token.Brackets

/-!
# Paths in brackets

A name in brackets is a name, whatever it holds.  So a path of such names has them as its
segments and goes up nowhere (`path_bracketed`), and `{{[name]}}` is the path of the name if the
scanner finds the bracket that closes (`parse_bracketTemplate`).

The brackets do not show in the text of a path.  So the text `this.` at its front may be that of
a name in brackets, and the path counts as one that is written with `this.`.
-/

namespace Stache

/-! ## What the builder makes of names in brackets -/

/-- The segments of names in brackets, with separators between them. -/
def bracketedSegments (first : Text) (more : List (Separator × Text)) : List Segment :=
  .ofIdent ('[' :: (first ++ [']'])) none ::
    more.map fun x => .ofIdent ('[' :: (x.2 ++ [']'])) (some x.1)

theorem PathPrefix.foldlM_add_names {l : List Segment} (h : ∀ s ∈ l, s.isOperator = false)
    (q : PathPrefix) : l.foldlM PathPrefix.add q =
      .ok ⟨q.written ++ l.flatMap Segment.text, q.names ++ l.map Segment.name, q.depth⟩ := by
  induction l generalizing q with
  | nil =>
      rw [List.flatMap_nil, List.map_nil, List.append_nil, List.append_nil]
      rfl
  | cons s l ih =>
      obtain ⟨hs, hl⟩ := List.forall_mem_cons.mp h
      have hadd : q.add s = .ok ⟨q.written ++ s.text, q.names ++ [s.name], q.depth⟩ := by
        rw [PathPrefix.add, hs]
        rfl
      rw [List.foldlM_cons, hadd]
      refine (ih hl _).trans ?_
      rw [List.flatMap_cons, List.map_cons, List.append_assoc, List.append_assoc]
      rfl

namespace Builder

variable {first : Text} {more : List (Separator × Text)}

theorem part_bracketed (name : Text) (kind : Option Separator) :
    (Segment.ofIdent ('[' :: (name ++ [']'])) kind).part = name := unbracket_bracketed name

theorem isOperator_bracketed (name : Text) (kind : Option Separator) :
    (Segment.ofIdent ('[' :: (name ++ [']'])) kind).isOperator = false := by
  have hne : '[' :: (name ++ [']']) ≠ name := fun heq => by
    have hlength := congrArg List.length heq
    simp at hlength
    omega
  rw [Segment.isOperator, part_bracketed, Bool.and_eq_false_iff]
  exact .inl (beq_eq_false_iff_ne.mpr hne)

theorem isOperator_of_mem_bracketed : ∀ s ∈ bracketedSegments first more, s.isOperator = false :=
  List.forall_mem_cons.mpr
    ⟨isOperator_bracketed _ _, List.forall_mem_map.mpr fun _ _ => isOperator_bracketed _ _⟩

theorem names_bracketed (h : ∀ x ∈ more, x.1 ≠ .member) :
    (bracketedSegments first more).map Segment.name = first :: more.map Prod.snd := by
  rw [bracketedSegments, List.map_cons, List.map_map]
  refine List.cons_eq_cons.mpr ⟨part_bracketed first none, List.map_congr_left fun x hx => ?_⟩
  have hkind : (Segment.ofIdent ('[' :: (x.2 ++ [']'])) (some x.1)).separator ≠ some .member :=
    fun heq => h x hx (Option.some.inj heq)
  rw [Function.comp_apply, Segment.name, if_neg hkind, part_bracketed]

/-- The brackets do not show in the text. -/
theorem text_bracketed : (bracketedSegments first more).flatMap Segment.text =
    first ++ more.flatMap fun x => x.1.text ++ x.2 := by
  rw [bracketedSegments, List.flatMap_cons, List.flatMap_map, Segment.text, part_bracketed]
  refine congrArg (first ++ ·) (List.flatMap_congr fun x _ => ?_)
  rw [Segment.text, part_bracketed]
  rfl

/-- The text starts with `this.` if the first name does, or if that name is `this` and a dot
follows. -/
theorem this_isPrefix_iff (h : ∀ x ∈ more, x.1 ≠ .member) :
    ['t', 'h', 'i', 's', '.'] <+: first ++ more.flatMap (fun x => x.1.text ++ x.2) ↔
      ['t', 'h', 'i', 's', '.'] <+: first ∨
        first = ['t', 'h', 'i', 's'] ∧ ∃ x ∈ more.head?, x.1 = .dot := by
  constructor
  · intro hthis
    rcases List.prefix_or_prefix_of_prefix hthis (List.prefix_append first _) with hfirst | hfirst
    · exact .inl hfirst
    · obtain ⟨rest, hrest⟩ := hfirst
      rw [← hrest, List.prefix_append_right_inj] at hthis
      cases rest with
      | nil => exact .inl ⟨[], by rw [List.append_nil, ← hrest, List.append_nil]⟩
      | cons d rest =>
          have hdot : d ∉ ['t', 'h', 'i', 's'] →
              ['t', 'h', 'i', 's'] = first ∧ '.' = d ∧ [] = rest := fun hd =>
            (List.append_cons_inj_of_notMem hd List.not_mem_nil).mp hrest.symm
          cases more with
          | nil => cases List.prefix_nil.mp hthis
          | cons x more =>
              obtain ⟨kind, name⟩ := x
              obtain ⟨t, ht⟩ := hthis
              cases kind with
              | slash =>
                  obtain rfl : d = '/' := (List.cons.inj ht).1
                  exact absurd (hdot (by decide)).2.1 (by decide)
              | dot =>
                  obtain rfl : d = '.' := (List.cons.inj ht).1
                  exact .inr ⟨(hdot (by decide)).1.symm, _, rfl, rfl⟩
              | member => exact absurd rfl (h _ List.mem_cons_self)
  · rintro (hfirst | ⟨rfl, x, hx, hkind⟩)
    · exact hfirst.trans (List.prefix_append first _)
    · obtain ⟨more, rfl⟩ := List.head?_eq_some_iff.mp hx
      obtain ⟨kind, name⟩ := x
      obtain rfl : kind = .dot := hkind
      exact ⟨_, rfl⟩

/-- A path of names in brackets is never refused. -/
theorem exists_path_bracketed (b : Builder) (x : Extent) (first : Text)
    (more : List (Separator × Text)) :
    ∃ p, b.path false none (bracketedSegments first more) x = .ok p ∧ p.data = false ∧
      p.depth = 0 ∧ p.parts = (bracketedSegments first more).map Segment.name ∧
      p.written = first ++ more.flatMap (fun s => s.1.text ++ s.2) ∧
      p.fromThis = ['t', 'h', 'i', 's', '.'].isPrefixOf p.written := by
  have hnames : ∀ s ∈ bracketedSegments first more, s.isOperator = false :=
    isOperator_of_mem_bracketed
  have hfold := PathPrefix.foldlM_add_names hnames ⟨pathStart false none, [], 0⟩
  obtain ⟨p, hpath⟩ := exists_path (b := b) hfold x
  obtain ⟨q, hq, rfl⟩ := exists_of_path hpath
  cases hfold.symm.trans hq
  exact ⟨_, hpath, rfl, rfl, rfl, text_bracketed, rfl⟩

/-- **Names in brackets never move through the scopes.**  A path of names in brackets, with dots
and slashes between them, is never refused, has depth 0, and its segments are the names, whatever
they are.  It counts as written with `this.` if its text starts so: the first name does, or it is
`this` and a dot follows. -/
theorem path_bracketed (b : Builder) (x : Extent) (first : Text) (more : List (Separator × Text))
    (h : ∀ s ∈ more, s.1 ≠ .member) :
    ∃ p, b.path false none (bracketedSegments first more) x = .ok p ∧ p.data = false ∧
      p.depth = 0 ∧ p.parts = first :: more.map Prod.snd ∧
      p.written = first ++ more.flatMap (fun s => s.1.text ++ s.2) ∧
      (p.fromThis = true ↔ ['t', 'h', 'i', 's', '.'] <+: first ∨
        first = ['t', 'h', 'i', 's'] ∧ ∃ s ∈ more.head?, s.1 = .dot) := by
  obtain ⟨p, hpath, hdata, hdepth, hparts, hwritten, hthis⟩ := exists_path_bracketed b x first more
  refine ⟨p, hpath, hdata, hdepth, hparts.trans (names_bracketed h), hwritten, ?_⟩
  rw [hthis, hwritten, List.isPrefixOf_iff_prefix]
  exact this_isPrefix_iff h

/-- `[..]/[this].[.]` names three segments. -/
theorem path_bracketed_operators :
    (∀ s ∈ [(Separator.slash, ['t', 'h', 'i', 's']), (.dot, ['.'])], s.1 ≠ .member) ∧
      ∃ p, Builder.path {} false none
          (bracketedSegments ['.', '.'] [(.slash, ['t', 'h', 'i', 's']), (.dot, ['.'])])
          ⟨⟨1, 2⟩, ⟨1, 17⟩⟩ = .ok p ∧
        p.depth = 0 ∧ p.parts = [['.', '.'], ['t', 'h', 'i', 's'], ['.']] ∧
        p.fromThis = false := by
  have hkinds : ∀ s ∈ [(Separator.slash, ['t', 'h', 'i', 's']), (.dot, ['.'])],
      s.1 ≠ .member := by decide
  obtain ⟨p, hpath, -, hdepth, hparts, -, hthis⟩ := path_bracketed {} ⟨⟨1, 2⟩, ⟨1, 17⟩⟩ ['.', '.']
    [(.slash, ['t', 'h', 'i', 's']), (.dot, ['.'])] hkinds
  exact ⟨hkinds, p, hpath, hdepth, hparts, Bool.eq_false_iff.mpr (mt hthis.mp (by decide))⟩

/-- The path `[this].[x]` counts as written with `this.`. -/
theorem fromThis_bracketed_ne : ¬∀ (b : Builder) (x : Extent) (first : Text)
    (more : List (Separator × Text)), (∀ s ∈ more, s.1 ≠ .member) →
      ∃ p, b.path false none (bracketedSegments first more) x = .ok p ∧ p.depth = 0 ∧
        p.fromThis = false ∧ p.parts = first :: more.map Prod.snd := by
  intro hall
  obtain ⟨p, hpath, -, hthis, -⟩ :=
    hall {} ⟨⟨1, 0⟩, ⟨1, 10⟩⟩ ['t', 'h', 'i', 's'] [(.dot, ['x'])] (by decide)
  obtain ⟨p', hpath', -, -, -, hwritten, hthis'⟩ := exists_path_bracketed {} ⟨⟨1, 0⟩, ⟨1, 10⟩⟩
    ['t', 'h', 'i', 's'] [(.dot, ['x'])]
  cases hpath.symm.trans hpath'
  rw [hthis', hwritten] at hthis
  exact absurd hthis (by decide)

end Builder

/-! ## One name in brackets -/

/-- The result is a tag of the one path that names `name`. -/
def ReadsName (name : Text) (result : Except ParseFailure Program) : Prop :=
  ∃ tree node path, result = .ok tree ∧ tree.body = [.mustache node] ∧
    node.call = ⟨.path path, [], none⟩ ∧ path.data = false ∧ path.depth = 0 ∧
    path.parts = [name] ∧ path.written = name

namespace Grammar

theorem exists_program_of_bracketTemplate (g : Grammar) {name : Text} {ls : List Lexeme}
    (hls : tokensOf ls =
      [.opener .plain ['{', '{'], .ident ('[' :: (name ++ [']'])), .closer ['}', '}']]) :
    ∃ node path, g.program ls = .ok (Builder.program [.mustache node] none) ∧
      node.call = ⟨.path path, [], none⟩ ∧ path.data = false ∧ path.depth = 0 ∧
      path.parts = [name] ∧ path.written = name := by
  obtain ⟨s, ls₁, rfl, h₁⟩ := exists_of_tokensOf hls
  obtain ⟨s', ls₂, rfl, h₂⟩ := exists_of_tokensOf h₁
  obtain ⟨s'', ls₃, rfl, h₃⟩ := exists_of_tokensOf h₂
  obtain rfl : ls₃ = [] := List.map_eq_nil_iff.mp h₃
  obtain ⟨path, hpath, hdata, hdepth, hparts, hwritten, -⟩ := Builder.exists_path_bracketed
    g.builder (g.extentOf [⟨.ident ('[' :: (name ++ [']'])), s'⟩]) name []
  have hcall : g.WritesCall [⟨.ident ('[' :: (name ++ [']'])), s'⟩] ⟨.path path, [], none⟩ :=
    .mk (.path (.mk .nil) hpath) .nil .nil
  refine ⟨_, path, program_of_writesStatement (.plain hcall), rfl, hdata, hdepth, ?_, ?_⟩
  · exact hparts.trans (Builder.names_bracketed nofun)
  · exact hwritten.trans (List.append_nil name)

end Grammar

variable {o : Options} {name : Text}

/-- A fault is reported if the tags in front of it are in order. -/
theorem lexicalReport_of_parse_eq_ok {g : Grammar} {lexing : Lexing} {fault : Fault} {p : Program}
    (h : g.parse lexing.finished = .ok p) :
    lexicalReport g lexing fault = fault.diagnostic g.text g.builder.source := by
  rw [lexicalReport, h]

/-- The bracket behind a backslash does not close. -/
theorem parseRaw_bracketTemplate_backslash (ho : o.brackets = .segment)
    (h : name.getLast? = some '\\') :
    ∃ d, parseRaw o (bracketTemplate name) = .error (.one d) ∧
      d.code.map Code.id = some "E001" := by
  have hsquare : o.brackets.isList = false := by
    rw [ho]
    rfl
  have htokens := tokenize_bracketTemplate_backslash h
  rw [← hsquare] at htokens
  have hnothing : (o.grammar (bracketTemplate name)).parse [] = .ok (Builder.program [] none) := by
    rw [Grammar.parse, Grammar.program_eq_ok (.mk .nil)]
  rw [parseRaw, htokens]
  refine ⟨_, congrArg (fun d => Except.error (ParseFailure.one d))
    (lexicalReport_of_parse_eq_ok hnothing), rfl⟩

theorem readsName_bracketTemplate (ho : o.brackets = .segment) (h : name.getLast? ≠ some '\\') :
    ReadsName name (parseRaw o (bracketTemplate name)) ∧
      ReadsName name (parse o (bracketTemplate name)) := by
  have hsquare : o.brackets.isList = false := by
    rw [ho]
    rfl
  obtain ⟨ls, htokens, hls⟩ := tokenize_bracketTemplate h
  rw [← hsquare] at htokens
  obtain ⟨node, path, hprogram, hnode⟩ :=
    (o.grammar (bracketTemplate name)).exists_program_of_bracketTemplate hls
  rw [parse, parseRaw_of_tokenize htokens, Grammar.parse, hprogram]
  exact ⟨⟨_, node, path, rfl, rfl, hnode⟩, ⟨_, node, path, rfl, rfl, hnode⟩⟩

/-- **A name in brackets is read back**, with a backslash in front of every backslash and of every
`]` in it, as long as it does not end in a backslash.  If it does, no bracket closes and the
scanner refuses the template. -/
theorem parse_bracketTemplate (ho : o.brackets = .segment) (name : Text) :
    (name.getLast? ≠ some '\\' → ReadsName name (parseRaw o (bracketTemplate name)) ∧
      ReadsName name (parse o (bracketTemplate name))) ∧
    (name.getLast? = some '\\' → ∃ d, parseRaw o (bracketTemplate name) = .error (.one d) ∧
      parse o (bracketTemplate name) = .error (.one d) ∧ d.code.map Code.id = some "E001") := by
  refine ⟨readsName_bracketTemplate ho, fun h => ?_⟩
  obtain ⟨d, hraw, hcode⟩ := parseRaw_bracketTemplate_backslash ho h
  exact ⟨d, hraw, by rw [parse, hraw]; rfl, hcode⟩

example : bracketTemplate ['a', ']', '\\', 'b'] = "\x7b\x7b[a\\]\\\\b]\x7d\x7d".toList := by decide

/-- The name `a]\b` is read back, and the name `\` is not. -/
theorem parse_bracketTemplate_escapes : ({} : Options).brackets = .segment ∧
    ReadsName ['a', ']', '\\', 'b'] (parse {} (bracketTemplate ['a', ']', '\\', 'b'])) ∧
    ∃ d, parse {} (bracketTemplate ['\\']) = .error (.one d) ∧
      d.code.map Code.id = some "E001" := by
  refine ⟨rfl, ((parse_bracketTemplate (o := {}) rfl _).1 (by decide)).2, ?_⟩
  obtain ⟨d, -, hd⟩ := (parse_bracketTemplate (o := {}) rfl ['\\']).2 rfl
  exact ⟨d, hd⟩

/-- The name `\` is not read back. -/
theorem parse_bracketTemplate_ne :
    ¬∀ name, ReadsName name (parseRaw {} (bracketTemplate name)) := by
  intro hall
  obtain ⟨tree, _, _, htree, -⟩ := hall ['\\']
  have hlast : List.getLast? ['\\'] = some '\\' := rfl
  obtain ⟨d, hraw, -⟩ := parseRaw_bracketTemplate_backslash (o := {}) rfl hlast
  cases htree.symm.trans hraw

end Stache
