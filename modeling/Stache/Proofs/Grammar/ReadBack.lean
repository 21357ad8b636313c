import Stache.Parse
import Stache.Proofs.Grammar.Exact
import Stache.Proofs.Grammar.Paths
import Stache.Proofs.Token.PathText

/-!
# The text of a path is read back

In a template `{{f path}}` the parameter is the path that was written, or the builder refuses it
because `..`, `.` or `this` stands behind a name (`readBack_template`).

A path is read from the left, and the names read so far decide whether one of the three may still
follow.  So the pieces are in order if and only if no piece without a name has one with a name in
front of it, and the first piece that breaks the order is where the builder stops.
-/

namespace Stache

/-! ## The pieces of a path -/

/-- A segment of a path with what stands in front of it. -/
structure PathPiece where
  separator : Option Separator
  segment : SegmentText
deriving DecidableEq, Repr

namespace PathPiece

/-- The text of a piece, without brackets. -/
def text (x : PathPiece) : Text := (x.separator.map Separator.text).getD [] ++ x.segment.part

/-- The name of a piece, if it has one.  A private member has `#` in front. -/
def name? (x : PathPiece) : Option Text :=
  if x.segment.isNamed then
    some (if x.separator = some .member then '#' :: x.segment.part else x.segment.part)
  else none

/-- Only names stand behind a name. -/
def NamesLast (l : List PathPiece) : Prop :=
  l.Pairwise fun x y => x.segment.isNamed = true → y.segment.isNamed = true

instance (l : List PathPiece) : Decidable (NamesLast l) := by unfold NamesLast; infer_instance

end PathPiece

open PathPiece

namespace PathText

/-- The pieces of a path. -/
def pieces (p : PathText) : List PathPiece :=
  ⟨none, p.first⟩ :: p.more.map fun x => ⟨some x.1, x.2⟩

/-- The text of a path, or of the first pieces of one, without brackets. -/
def plain (p : PathText) (l : List PathPiece) : Text :=
  (if p.data then ['@'] else []) ++ l.flatMap PathPiece.text

/-- The template `{{f path}}` is read as what it says. -/
structure ReadBack (p : PathText) (result : Except ParseFailure Program) : Prop where
  /-- The first piece that is out of order is reported. -/
  refused : ¬NamesLast p.pieces → ∃ before x after d, p.pieces = before ++ x :: after ∧
    NamesLast before ∧ ¬NamesLast (before ++ [x]) ∧ result = .error (.one d) ∧
    d.code.map Code.id = some "E200" ∧
    d.message = "Invalid path: " ++ (p.plain (before ++ [x])).str
  /-- Otherwise the path is the only parameter. -/
  read : NamesLast p.pieces → ∃ tree node head path, result = .ok tree ∧
    tree.body = [.mustache node] ∧ node.call = ⟨.path head, [.path path], none⟩ ∧
    head.written = ['f'] ∧ path.data = p.data ∧
    path.depth = p.pieces.countP (·.segment = .up) ∧ path.parts = p.pieces.filterMap name? ∧
    path.written = p.plain p.pieces

end PathText

/-! ## The segments of the pieces -/

namespace SegmentText

variable {s : SegmentText}

theorem Valid.unbracket_written (hs : s.Valid) : unbracket s.written = s.part := by
  cases s with
  | up | here | this => rfl
  | word name => exact unbracket_of_isBare (.inr (.inr ⟨hs.1.ne_nil, hs.1.ident⟩))
  | bracketed name => exact unbracket_bracketed name

theorem Valid.isOperator_ofIdent (hs : s.Valid) (kind : Option Separator) :
    (Segment.ofIdent s.written kind).isOperator = !s.isNamed := by
  rw [Segment.isOperator, Segment.ofIdent, hs.unbracket_written]
  cases s with
  | up | here | this => rfl
  | word name =>
      have hdots (r : Text) : name ≠ '.' :: r := by
        rintro rfl
        exact absurd (hs.1.ident '.' List.mem_cons_self) (by decide)
      simp [written, part, isNamed, hdots, hs.2]
  | bracketed name =>
      have hne : '[' :: (name ++ [']']) ≠ name := fun heq => by
        have hlength := congrArg List.length heq
        simp at hlength
        omega
      simp [written, part, isNamed, hne]

end SegmentText

namespace PathPiece

/-- The segment that the grammar finds. -/
def toSegment (x : PathPiece) : Segment := .ofIdent x.segment.written x.separator

variable {x : PathPiece} {l : List PathPiece} {q : PathPrefix}

theorem text_toSegment (hx : x.segment.Valid) : x.toSegment.text = x.text := by
  rw [toSegment, Segment.text, Segment.ofIdent, hx.unbracket_written]
  rfl

theorem name?_eq_some (hx : x.segment.Valid) (hname : x.segment.isNamed = true) :
    x.name? = some x.toSegment.name := by
  rw [name?, if_pos hname, toSegment, Segment.name, Segment.ofIdent, hx.unbracket_written]

theorem name?_eq_none (hname : x.segment.isNamed = false) : x.name? = none := by
  rw [name?, hname]
  rfl

/-- A piece with a name may stand anywhere. -/
theorem add_named (hx : x.segment.Valid) (hname : x.segment.isNamed = true) :
    q.add x.toSegment = .ok ⟨q.written ++ x.text, q.names ++ [x.toSegment.name], q.depth⟩ := by
  have hoperator : x.toSegment.isOperator = false := by
    rw [toSegment, hx.isOperator_ofIdent, hname]
    rfl
  rw [PathPrefix.add, hoperator, text_toSegment hx]
  rfl

/-- A piece without a name may stand in front of all names. -/
theorem add_operator (hx : x.segment.Valid) (hname : x.segment.isNamed = false) :
    q.add x.toSegment =
      if q.names = [] then
        .ok ⟨q.written ++ x.text, [], if x.segment = .up then q.depth + 1 else q.depth⟩
      else .error (q.written ++ x.text) := by
  have hoperator : x.toSegment.isOperator = true := by
    rw [toSegment, hx.isOperator_ofIdent, hname]
    rfl
  have hup : x.toSegment.part = ['.', '.'] ↔ x.segment = .up := by
    rw [toSegment, Segment.ofIdent, hx.unbracket_written]
    cases hs : x.segment with
    | word | bracketed => rw [hs] at hname; cases hname
    | up | here | this => simp [SegmentText.part, SegmentText.written]
  rw [PathPrefix.add, hoperator, text_toSegment hx]
  simp only [if_true, List.isEmpty_iff, hup]
  split
  · next hnil => rw [hnil]
  · rfl

/-- What a part of a path comes to with some more pieces. -/
def extend (q : PathPrefix) (l : List PathPiece) : PathPrefix :=
  ⟨q.written ++ l.flatMap text, q.names ++ l.filterMap name?,
    q.depth + l.countP (·.segment = .up)⟩

/-- Pieces in order are all taken. -/
theorem foldlM_toSegment (hl : ∀ x ∈ l, x.segment.Valid) (horder : NamesLast l)
    (hq : q.names ≠ [] → ∀ x ∈ l, x.segment.isNamed = true) :
    (l.map toSegment).foldlM PathPrefix.add q = .ok (extend q l) := by
  induction l generalizing q with
  | nil =>
      obtain ⟨written, names, depth⟩ := q
      simp [extend]
      rfl
  | cons x l ih =>
      obtain ⟨hx, hl⟩ := List.forall_mem_cons.mp hl
      obtain ⟨hbehind, horder⟩ := List.pairwise_cons.mp horder
      rw [List.map_cons, List.foldlM_cons]
      cases hname : x.segment.isNamed with
      | true =>
          have hrest : extend ⟨q.written ++ x.text, q.names ++ [x.toSegment.name], q.depth⟩ l =
              extend q (x :: l) := by
            have hup : x.segment ≠ .up := by
              intro hup
              rw [hup] at hname
              cases hname
            simp [extend, name?_eq_some hx hname, hup]
          rw [add_named hx hname, ← hrest]
          exact ih hl horder fun _ y hy => hbehind y hy hname
      | false =>
          have hnil : q.names = [] := by
            refine Decidable.byContradiction fun hne => ?_
            rw [hq hne x List.mem_cons_self] at hname
            cases hname
          have hrest :
              extend ⟨q.written ++ x.text, [], if x.segment = .up then q.depth + 1 else q.depth⟩ l =
                extend q (x :: l) := by
            simp only [extend, hnil, List.flatMap_cons, List.filterMap_cons, name?_eq_none hname,
              List.countP_cons, List.append_assoc, PathPrefix.mk.injEq, true_and, decide_eq_true_eq]
            split <;> omega
          rw [add_operator hx hname, if_pos hnil, ← hrest]
          exact ih hl horder fun hne => absurd rfl hne

/-- Of pieces that are not in order there is a first one that breaks the order. -/
theorem exists_first (h : ¬NamesLast l) : ∃ before x after, l = before ++ x :: after ∧
    NamesLast before ∧ ¬NamesLast (before ++ [x]) := by
  induction l using List.reverseRecOn with
  | nil => exact absurd List.Pairwise.nil h
  | append_singleton l x ih =>
      by_cases hl : NamesLast l
      · exact ⟨l, x, [], rfl, hl, h⟩
      · obtain ⟨before, y, after, rfl, hbefore, hy⟩ := ih hl
        exact ⟨before, y, after ++ [x], by simp, hbefore, hy⟩

/-- A piece that breaks the order has no name, but one in front of it has. -/
theorem exists_of_not_namesLast (hl : NamesLast l) (h : ¬NamesLast (l ++ [x])) :
    x.segment.isNamed = false ∧ ∃ y ∈ l, y.segment.isNamed = true := by
  rw [NamesLast, List.pairwise_append] at h
  have hbreaks : ¬∀ y ∈ l, y.segment.isNamed = true → x.segment.isNamed = true := by
    intro hall
    refine h ⟨hl, List.pairwise_singleton _ _, fun y hy z hz => ?_⟩
    rw [List.mem_singleton.mp hz]
    exact hall y hy
  push Not at hbreaks
  obtain ⟨y, hy, hname, hx⟩ := hbreaks
  exact ⟨Bool.eq_false_iff.mpr hx, y, hy, hname⟩

/-- Pieces that are not in order are refused at the first one that breaks it. -/
theorem foldlM_toSegment_eq_error {after : List PathPiece}
    (hl : ∀ y ∈ l ++ x :: after, y.segment.Valid) (horder : NamesLast l)
    (hbreaks : ¬NamesLast (l ++ [x])) (hq : q.names = []) :
    ((l ++ x :: after).map toSegment).foldlM PathPrefix.add q =
      .error (q.written ++ (l ++ [x]).flatMap text) := by
  obtain ⟨hfront, hx, -⟩ : (∀ y ∈ l, y.segment.Valid) ∧ x.segment.Valid ∧
      ∀ y ∈ after, y.segment.Valid := by
    simpa only [List.forall_mem_append, List.forall_mem_cons] using hl
  obtain ⟨hname, y, hy, hyname⟩ := exists_of_not_namesLast horder hbreaks
  have hne : (extend q l).names ≠ [] := by
    have hmem : y.toSegment.name ∈ (extend q l).names :=
      List.mem_append_right _
        (List.mem_filterMap.mpr ⟨y, hy, name?_eq_some (hfront y hy) hyname⟩)
    exact List.ne_nil_of_mem hmem
  rw [List.map_append, List.foldlM_append, foldlM_toSegment hfront horder fun hne => absurd hq hne]
  show List.foldlM PathPrefix.add (extend q l) (x.toSegment :: after.map toSegment) = _
  rw [List.foldlM_cons, add_operator hx hname, if_neg hne, List.flatMap_append, ← List.append_assoc,
    List.flatMap_singleton]
  rfl

end PathPiece

/-! ## What the builder makes of the pieces -/

namespace Builder

variable {b : Builder} {data : Bool} {segments : List Segment} {x : Extent}

theorem path_eq_error {written : Text}
    (h : segments.foldlM PathPrefix.add ⟨pathStart data none, [], 0⟩ = .error written) :
    b.path data none segments x = .error (.invalidPath written (b.locate x)) := by
  rw [path.eq_def]
  cases data with
  | true | false =>
      rw [pathStart] at h
      simp only [if_true, Bool.false_eq_true, if_false] at h
      simp only [h]

theorem path_eq_ok {q : PathPrefix}
    (h : segments.foldlM PathPrefix.add ⟨pathStart data none, [], 0⟩ = .ok q) :
    ∃ p, b.path data none segments x = .ok p ∧ p.data = data ∧ p.depth = q.depth ∧
      p.parts = q.names ∧ p.written = q.written := by
  rw [path.eq_def]
  obtain ⟨written, names, depth⟩ := q
  cases data with
  | true | false =>
      rw [pathStart] at h
      simp only [if_true, Bool.false_eq_true, if_false] at h
      simp only [h]
      cases names with
      | nil | cons _ _ => exact ⟨_, rfl, rfl, rfl, rfl, rfl⟩

end Builder

namespace PathText

variable {p : PathText}

theorem valid_of_mem : ∀ x ∈ p.pieces, x.segment.Valid := by
  have hmore {s : SegmentText} {more : List (Separator × SegmentText)} (h : s.Continues more) :
      ∀ x ∈ more, x.2.Valid := by
    induction h with
    | nil => nofun
    | cons _ hs' _ ih => exact List.forall_mem_cons.mpr ⟨hs', ih⟩
  refine List.forall_mem_cons.mpr ⟨p.valid, List.forall_mem_map.mpr fun x hx => ?_⟩
  exact hmore p.continues x hx

end PathText

namespace Grammar

variable {g : Grammar} {ls ls' : List Lexeme} {segments : List Segment} {e : BuildError}

/-! ## Paths that are refused -/

/-- The tokens of a path that goes on from no call.  The flag says that it starts with `@`. -/
inductive WritesNamed : Bool → List Lexeme → List Segment → Prop where
  | plain {ls : List Lexeme} {segments : List Segment} (h : WritesSegments ls segments) :
      WritesNamed false ls segments
  | data {s : Span} {ls : List Lexeme} {segments : List Segment} (h : WritesSegments ls segments) :
      WritesNamed true (⟨.data, s⟩ :: ls) segments

theorem WritesNamed.writesExpr {data : Bool} {p : Path} (h : WritesNamed data ls segments)
    (hpath : g.builder.path data none segments (g.extentOf ls) = .ok p) :
    g.WritesExpr ls (.path p) := by
  cases h with
  | plain h => exact .path h hpath
  | data h => exact .data h hpath

theorem WritesNamed.derives {data : Bool} (h : WritesNamed data ls segments) :
    Derives .expr (tokensOf ls) := by
  cases h with
  | plain h => exact .path (derives_of_writesSegments h)
  | data h => exact .data (derives_of_writesSegments h)

theorem WritesNamed.rejects_expr {data : Bool} (h : WritesNamed data ls segments)
    (hpath : g.builder.path data none segments (g.extentOf ls) = .error e) {c c' : Cursor}
    (hreads : c.Reads ls c') (hrest : Fronts Token.endsExpr c'.tokens) :
    Rejects (expr g c) e := by
  cases h with
  | plain h => exact (settles_path h hreads hrest).rejects hpath
  | data h => exact (settles_data h hreads hrest).rejects hpath

/-- A tag whose first parameter is a path that the builder refuses. -/
theorem WritesNamed.rejects_statements {data : Bool} {head : Expr} {opener closer : Text}
    {s s' : Span} (hhead : g.WritesExpr ls head) (h : WritesNamed data ls' segments)
    (hpath : g.builder.path data none segments (g.extentOf ls') = .error e) {c c' : Cursor}
    (hall : c.Reads (tag .plain opener s (ls ++ ls') closer s') c') :
    Rejects (statements g c) e := by
  obtain ⟨c₁, hopen, hreads⟩ := hall.exists_cons
  obtain ⟨c₃, hreads, hclose⟩ := hreads.exists_append
  obtain ⟨c₂, hfirst, hreads⟩ := hreads.exists_append
  obtain ⟨hlt, hnext⟩ := hopen.next?
  have hends : Fronts Token.endsExpr c₃.tokens := by
    rw [hclose.tokens_eq]
    exact .cons rfl
  have hends' : Fronts Token.endsExpr c₂.tokens := by
    rw [hreads.tokens_eq]
    exact fronts_expr h.derives
  have hparams : Rejects (params g c₂) e := by
    have hpair : c₂.atPair = false := by
      rw [Cursor.atPair_eq, hreads.tokens_eq, startsPair_expr h.derives hends]
    rw [params, if_pos (by rw [hpair, peek?_startsExpr h.derives hreads.tokens_eq]; rfl)]
    exact (h.rejects_expr hpath hreads hends).bind
  have hcall : Rejects (call g c₁) e := by
    rw [call]
    exact (exact_of_writesExpr hhead hfirst hends').rejects fun _ => hparams.bind
  have hstatement : Rejects (statement g c) e := by
    rw [statement]
    simp only [hnext]
    exact Rejects.bind (Rejects.commit (Rejects.bind hcall))
  have hstart : c.peek?.any Token.startsStatement = true := by
    rw [Cursor.peek?_eq, hopen.tokens_eq]
    rfl
  rw [statements, if_pos hstart]
  exact hstatement.bind

theorem WritesNamed.rejects_program {data : Bool} {head : Expr} {opener closer : Text}
    {s s' : Span} (hhead : g.WritesExpr ls head) (h : WritesNamed data ls' segments)
    (hpath : g.builder.path data none segments (g.extentOf ls') = .error e) :
    Rejects (g.program (tag .plain opener s (ls ++ ls') closer s')) e := by
  have hall : Cursor.Reads ⟨⟨0, 0⟩, tag .plain opener s (ls ++ ls') closer s'⟩ _
      ⟨endOf ⟨0, 0⟩ (tag .plain opener s (ls ++ ls') closer s'), []⟩ :=
    ⟨(List.append_nil _).symm, rfl⟩
  exact (h.rejects_statements hhead hpath hall).bind

/-! ## Tokens of a path -/

theorem exists_of_tokensOf {t : Token} {ts : List Token} (h : tokensOf ls = t :: ts) :
    ∃ s ls', ls = ⟨t, s⟩ :: ls' ∧ tokensOf ls' = ts := by
  obtain ⟨⟨_, s⟩, ls', rfl, rfl, hls'⟩ := List.map_eq_cons_iff.mp h
  exact ⟨s, ls', rfl, hls'⟩

theorem writesTail_of_tokensOf {more : List (Separator × SegmentText)}
    (h : tokensOf ls = PathText.moreTokens more) :
    WritesTail ls (more.map fun x => PathPiece.toSegment ⟨some x.1, x.2⟩) := by
  induction more generalizing ls with
  | nil =>
      obtain rfl : ls = [] := List.map_eq_nil_iff.mp h
      exact .nil
  | cons x more ih =>
      have hfront : tokensOf ls =
          .separator x.1 :: .ident x.2.written :: PathText.moreTokens more := h
      obtain ⟨s, ls', rfl, hsegment⟩ := exists_of_tokensOf hfront
      obtain ⟨s', ls'', rfl, hmore⟩ := exists_of_tokensOf hsegment
      exact .cons (ih hmore)

theorem writesNamed_of_tokensOf (p : PathText) (h : tokensOf ls = p.tokens) :
    WritesNamed p.data ls (p.pieces.map PathPiece.toSegment) := by
  have hsegments {ls : List Lexeme}
      (h : tokensOf ls = .ident p.first.written :: PathText.moreTokens p.more) :
      WritesSegments ls (p.pieces.map PathPiece.toSegment) := by
    obtain ⟨s, ls', rfl, hmore⟩ := exists_of_tokensOf h
    rw [PathText.pieces, List.map_cons, List.map_map]
    exact .mk (writesTail_of_tokensOf hmore)
  rw [PathText.tokens] at h
  cases hdata : p.data with
  | false =>
      rw [hdata] at h
      exact .plain (hsegments h)
  | true =>
      rw [hdata] at h
      have hmark : tokensOf ls =
          .data :: .ident p.first.written :: PathText.moreTokens p.more := h
      obtain ⟨s, ls', rfl, hmore⟩ := exists_of_tokensOf hmark
      exact .data (hsegments hmore)

/-! ## Templates that call `f` -/

variable {own : List Lexeme} {s s' s'' : Span}

theorem exists_tag_of_tokensOf {ts : List Token} (h : tokensOf ls =
      .opener .plain ['{', '{'] :: .ident ['f'] :: (ts ++ [.closer ['}', '}']])) :
    ∃ s own s' s'', ls = tag .plain ['{', '{'] s ([⟨.ident ['f'], s'⟩] ++ own) ['}', '}'] s'' ∧
      tokensOf own = ts := by
  obtain ⟨s, ls₁, rfl, h₁⟩ := exists_of_tokensOf h
  obtain ⟨s', ls₂, rfl, h₂⟩ := exists_of_tokensOf h₁
  obtain ⟨own, ls₃, rfl, hown, h₃⟩ := List.map_eq_append_iff.mp h₂
  obtain ⟨s'', ls₄, rfl, h₄⟩ := exists_of_tokensOf h₃
  obtain rfl : ls₄ = [] := List.map_eq_nil_iff.mp h₄
  exact ⟨s, own, s', s'', rfl, hown⟩

theorem exists_name (g : Grammar) (s : Span) :
    ∃ head : Path, g.WritesExpr [⟨.ident ['f'], s⟩] (.path head) ∧ head.written = ['f'] :=
  ⟨_, .path (.mk .nil) rfl, rfl⟩

/-- What is written between `f` and the end of the tag is the only parameter. -/
theorem exists_program_of_param {e : Expr} (h : g.WritesExpr own e) :
    ∃ node head,
      g.program (tag .plain ['{', '{'] s ([⟨.ident ['f'], s'⟩] ++ own) ['}', '}'] s'') =
        .ok (Builder.program [.mustache node] none) ∧
      node.call = ⟨.path head, [e], none⟩ ∧ head.written = ['f'] := by
  obtain ⟨head, hhead, hname⟩ := exists_name g s'
  have hcall : g.WritesCall ([⟨.ident ['f'], s'⟩] ++ own) ⟨.path head, [e], none⟩ := by
    have hcall := WritesCall.mk hhead (.cons h .nil) .nil
    rwa [List.append_nil, List.append_nil] at hcall
  exact ⟨_, head, program_of_writesStatement (.plain hcall), rfl, hname⟩

end Grammar

/-! ## The template of a path -/

namespace PathText

open Grammar

variable {g : Grammar} {own : List Lexeme} {s s' s'' : Span}

/-- A path whose pieces are not in order is refused at the first one that breaks the order. -/
theorem exists_rejects (p : PathText) (hown : tokensOf own = p.tokens) (h : ¬NamesLast p.pieces) :
    ∃ before x after loc, p.pieces = before ++ x :: after ∧ NamesLast before ∧
      ¬NamesLast (before ++ [x]) ∧
      Rejects (g.program (tag .plain ['{', '{'] s ([⟨.ident ['f'], s'⟩] ++ own) ['}', '}'] s''))
        (.invalidPath (p.plain (before ++ [x])) loc) := by
  obtain ⟨before, x, after, hpieces, hbefore, hx⟩ := exists_first h
  have hvalid : ∀ y ∈ before ++ x :: after, y.segment.Valid := hpieces ▸ valid_of_mem
  have hfold : (p.pieces.map toSegment).foldlM PathPrefix.add
      ⟨Builder.pathStart p.data none, [], 0⟩ = .error (p.plain (before ++ [x])) := by
    rw [hpieces]
    exact foldlM_toSegment_eq_error hvalid hbefore hx rfl
  obtain ⟨head, hhead, -⟩ := exists_name g s'
  exact ⟨before, x, after, _, hpieces, hbefore, hx,
    (writesNamed_of_tokensOf p hown).rejects_program hhead (Builder.path_eq_error hfold)⟩

/-- A path whose pieces are in order is the only parameter. -/
theorem exists_program (p : PathText) (hown : tokensOf own = p.tokens) (h : NamesLast p.pieces) :
    ∃ node head path,
      g.program (tag .plain ['{', '{'] s ([⟨.ident ['f'], s'⟩] ++ own) ['}', '}'] s'') =
        .ok (Builder.program [.mustache node] none) ∧
      node.call = ⟨.path head, [.path path], none⟩ ∧ head.written = ['f'] ∧
      path.data = p.data ∧ path.depth = p.pieces.countP (·.segment = .up) ∧
      path.parts = p.pieces.filterMap name? ∧ path.written = p.plain p.pieces := by
  have hfold := foldlM_toSegment (q := ⟨Builder.pathStart p.data none, [], 0⟩) valid_of_mem h
    fun hne => absurd rfl hne
  obtain ⟨path, hpath, hdata, hdepth, hparts, hwritten⟩ :=
    Builder.path_eq_ok (b := g.builder) (x := g.extentOf own) hfold
  obtain ⟨node, head, hprogram, hcall, hname⟩ :=
    exists_program_of_param ((writesNamed_of_tokensOf p hown).writesExpr hpath)
  refine ⟨node, head, path, hprogram, hcall, hname, hdata, ?_, hparts, hwritten⟩
  rw [hdepth]
  exact Nat.zero_add _

/-- The path is read back if its refusal is reported and its tag is kept. -/
theorem readBack_of_program {p : PathText} (g : Grammar) {ls : List Lexeme}
    (hls : tokensOf ls =
      .opener .plain ['{', '{'] :: .ident ['f'] :: (p.tokens ++ [.closer ['}', '}']]))
    {result : Except ParseFailure Program}
    (hrefused : ∀ e, Rejects (g.program ls) e → result = .error (.one e.diagnostic))
    (hread : ∀ node, g.program ls = .ok (Builder.program [.mustache node] none) →
      ∃ tree, result = .ok tree ∧ tree.body = [.mustache node]) : p.ReadBack result := by
  obtain ⟨s, own, s', s'', rfl, hown⟩ := exists_tag_of_tokensOf hls
  constructor
  · intro h
    obtain ⟨before, x, after, loc, hpieces, hbefore, hx, hrejects⟩ := p.exists_rejects hown h
    exact ⟨before, x, after, _, hpieces, hbefore, hx, hrefused _ hrejects, rfl, rfl⟩
  · intro h
    obtain ⟨node, head, path, hprogram, h⟩ := p.exists_program hown h
    obtain ⟨tree, hresult, hbody⟩ := hread node hprogram
    exact ⟨tree, node, head, path, hresult, hbody, h⟩

end PathText

/-- A template without a fault is parsed as its tokens are. -/
theorem parseRaw_of_tokenize {o : Options} {text : Text} {ls : List Lexeme}
    (h : tokenize o.brackets.isList text = ⟨ls, none⟩) :
    parseRaw o text = ((o.grammar text).parse ls).mapError ParseFailure.one := by
  simp only [parseRaw, h]
  cases (o.grammar text).parse ls <;> rfl

/-- **The text of a path is read back.**  Take any path of `..`, `.`, `this`, words and names in
brackets, with any separators between them that may stand there.  In `{{f path}}` it is refused
if `..`, `.` or `this` stands behind a name, and the message shows the path up to the first of
these.  Otherwise it is the only parameter, with its data flag, its depth, its names and its
text. -/
theorem readBack_template {o : Options} (ho : o.brackets = .segment) (p : PathText) :
    p.ReadBack (parseRaw o p.template) ∧ p.ReadBack (parse o p.template) := by
  obtain ⟨ls, htokens, hls⟩ := tokenize_template p
  have hsquare : o.brackets.isList = false := by
    rw [ho]
    rfl
  rw [← hsquare] at htokens
  rw [parse, parseRaw_of_tokenize htokens, Grammar.parse]
  constructor
  · refine PathText.readBack_of_program (o.grammar p.template) hls (fun e he => ?_)
      fun node hnode => ?_
    · rw [he]
      rfl
    · rw [hnode]
      exact ⟨_, rfl, rfl⟩
  · refine PathText.readBack_of_program (o.grammar p.template) hls (fun e he => ?_)
      fun node hnode => ?_
    · rw [he]
      rfl
    · rw [hnode]
      exact ⟨_, rfl, rfl⟩

/-- `@../this/[..].#b`: a data path that goes up once and names two segments. -/
def orderedPath : PathText where
  data := true
  first := .up
  more := [(.slash, .this), (.slash, .bracketed ['.', '.']), (.member, .word ['b'])]
  valid := trivial
  continues :=
    .cons ⟨by decide, by decide⟩ trivial
      (.cons ⟨by decide, by decide⟩ ⟨by decide, by decide⟩
        (.cons ⟨by decide, by decide⟩ ⟨by decide, by decide⟩ .nil))

/-- `a.[b c]/../1d`: the segment `..` stands behind a name. -/
def misplacedPath : PathText where
  data := false
  first := .word ['a']
  more := [(.dot, .bracketed ['b', ' ', 'c']), (.slash, .up), (.slash, .word ['1', 'd'])]
  valid := ⟨by decide, by decide⟩
  continues :=
    .cons ⟨by decide, by decide⟩ ⟨by decide, by decide⟩
      (.cons ⟨by decide, by decide⟩ trivial
        (.cons ⟨by decide, by decide⟩ ⟨by decide, by decide⟩ .nil))

example : misplacedPath.template = "\x7b\x7bf a.[b c]/../1d\x7d\x7d".toList := by decide

/-- One of them is read and the other refused. -/
theorem readBack_orderedPath_misplacedPath : ({} : Options).brackets = .segment ∧
    NamesLast orderedPath.pieces ∧ orderedPath.ReadBack (parse {} orderedPath.template) ∧
    ¬NamesLast misplacedPath.pieces ∧ misplacedPath.ReadBack (parse {} misplacedPath.template) :=
  ⟨rfl, by decide, (readBack_template rfl orderedPath).2, by decide,
    (readBack_template rfl misplacedPath).2⟩

end Stache
