import Stache.Proofs.Grammar.Writes

/-!
# What the grammar accepts

Every production that succeeds has read tokens that write its result.  In
particular a program that `Grammar.program` returns is written by all of the
tokens (`writesProgram_of_program`).
-/

namespace Stache
namespace Grammar

variable {g : Grammar} {c c' : Cursor} {ls : List Lexeme}

/-! ## Places -/

/-- A phrase that is read reaches over the tokens that are read. -/
theorem extent_of_reads {l : Lexeme} (h : c.Reads (l :: ls) c') :
    g.extent l.span.start c' = g.extentOf (l :: ls) :=
  congrArg (Source.extent g.text) h.span_eq

/-- A production of the grammar reads tokens that write its result. -/
def Sound {α : Type} {n : Nat} (R : List Lexeme → α → Prop) (c : Cursor) (p : Parsed α n) : Prop :=
  ∃ ls, c.Reads ls p.cursor ∧ R ls p.value

/-! ## Paths -/

/-- The segments behind the first are written by the tokens that are read. -/
theorem sound_moreSegments (c : Cursor) {p : Parsed (List Segment) (c.rest.length + 1)}
    (h : moreSegments c = .ok p) : Sound WritesTail c p := by
  rw [moreSegments] at h
  split at h
  · next kind s c₁ h₁ hnext =>
      obtain ⟨⟨name, c₂, h₂⟩, hident, h⟩ := exists_of_bind_eq_ok h
      obtain ⟨⟨more, c₃, h₃⟩, hmore, h⟩ := exists_of_bind_eq_ok h
      cases h
      obtain ⟨s', hreads⟩ :=
        Cursor.reads_of_expect Token.eq_of_ident? (Cursor.eq_ok_of_commit hident)
      obtain ⟨ls, hrest, hls⟩ := sound_moreSegments c₂ hmore
      exact ⟨_, (Cursor.reads_of_next? hnext).cons (hreads.cons hrest), .cons hls⟩
  · cases h
    exact ⟨[], .refl c, .nil⟩
termination_by c.rest.length

/-- A path is written by the tokens that are read. -/
theorem sound_segments {p : Parsed (List Segment) c.rest.length} (h : segments c = .ok p) :
    Sound WritesSegments c p := by
  obtain ⟨⟨name, c₁, h₁⟩, hident, h⟩ := exists_of_bind_eq_ok h
  obtain ⟨⟨more, c₂, h₂⟩, hmore, h⟩ := exists_of_bind_eq_ok h
  cases h
  obtain ⟨s, hreads⟩ := Cursor.reads_of_expect Token.eq_of_ident? hident
  obtain ⟨ls, hrest, hls⟩ := sound_moreSegments c₁ hmore
  exact ⟨_, hreads.cons hrest, .mk hls⟩

/-- A call in parentheses, and the path that goes on from it. -/
theorem sound_afterSub {s s' : Span} {called : Call} (hcall : g.WritesCall ls called) {c₀ : Cursor}
    (hreads : c₀.Reads (parens s ls s') c) {p : Parsed Expr (c.rest.length + 1)}
    (h : afterSub g s.start (g.subOf called (parens s ls s')) c = .ok p) :
    Sound g.WritesExpr c₀ p := by
  rw [afterSub] at h
  split at h
  · next kind s'' c₁ h₁ hnext =>
      obtain ⟨⟨segments, c₂, h₂⟩, hsegments, h⟩ := exists_of_bind_eq_ok h
      obtain ⟨path, hpath, h⟩ := exists_of_bind_eq_ok h
      cases h
      obtain ⟨ls', hrest, hls'⟩ := sound_segments hsegments
      have hall := hreads.trans ((Cursor.reads_of_next? hnext).cons hrest)
      have hpath := Refusal.eq_ok_of_lift hpath
      rw [show g.extent s.start c₂ = _ from extent_of_reads hall] at hpath
      exact ⟨_, hall, .subPath hcall hls' hpath⟩
  · cases h
    exact ⟨_, hreads, .sub hcall⟩

/-! ## Expressions -/

theorem extent_start_of_reads (h : c.Reads ls c') (hne : ls ≠ []) :
    g.extent c.start c' = g.extentOf ls := by
  cases ls with
  | nil => exact absurd rfl hne
  | cons l ls =>
      rw [h.start_eq]
      exact extent_of_reads h

/-- Named arguments take tokens. -/
theorem ne_nil_of_writesPairs {pairs : List HashPair} (h : g.WritesPairs ls pairs)
    (hne : pairs ≠ []) : ls ≠ [] := by
  cases h with
  | nil => exact absurd rfl hne
  | cons _ _ => exact List.cons_ne_nil _ _

/-- In front of a name and `=` there is a pair. -/
theorem pairs_ne_nil {p : Parsed (List HashPair) (c.rest.length + 1)} (hpair : c.atPair = true)
    (h : pairs g c = .ok p) : p.value ≠ [] := by
  obtain ⟨last, rest⟩ := c
  rw [Cursor.atPair] at hpair
  split at hpair
  · next hrest =>
      cases hrest
      rw [pairs] at h
      obtain ⟨⟨value, c₃, h₃⟩, -, h⟩ := exists_of_bind_eq_ok h
      obtain ⟨⟨more, c₄, h₄⟩, -, h⟩ := exists_of_bind_eq_ok h
      cases h
      exact List.cons_ne_nil _ _
  · cases hpair

mutual

/-- **An expression is written by the tokens that are read for it.** -/
theorem sound_expr (c : Cursor) {p : Parsed Expr c.rest.length} (h : expr g c = .ok p) :
    Sound g.WritesExpr c p := by
  rw [expr] at h
  split at h
  · cases h
  · next token span c₁ h₁ hnext =>
      have hfirst := Cursor.reads_of_next? hnext
      have hplace : g.extent span.start c₁ = g.extentOf _ := extent_of_reads hfirst
      cases token with
      | ident name =>
          obtain ⟨⟨more, c₂, h₂⟩, hmore, h⟩ := exists_of_bind_eq_ok h
          obtain ⟨path, hpath, h⟩ := exists_of_bind_eq_ok h
          cases h
          obtain ⟨ls, hrest, hls⟩ := sound_moreSegments c₁ hmore
          have hall := hfirst.cons hrest
          have hpath := Refusal.eq_ok_of_lift hpath
          rw [show g.extent span.start c₂ = _ from extent_of_reads hall] at hpath
          exact ⟨_, hall, .path (.mk hls) hpath⟩
      | data =>
          obtain ⟨⟨more, c₂, h₂⟩, hmore, h⟩ := exists_of_bind_eq_ok h
          obtain ⟨path, hpath, h⟩ := exists_of_bind_eq_ok h
          cases h
          obtain ⟨ls, hrest, hls⟩ := sound_segments (Cursor.eq_ok_of_commit hmore)
          have hall := hfirst.cons hrest
          have hpath := Refusal.eq_ok_of_lift hpath
          rw [show g.extent span.start c₂ = _ from extent_of_reads hall] at hpath
          exact ⟨_, hall, .data hls hpath⟩
      | parenOpen =>
          have h := Cursor.eq_ok_of_commit h
          split at h
          · next hpair =>
              obtain ⟨⟨list, c₂, h₂⟩, hlist, h⟩ := exists_of_bind_eq_ok h
              obtain ⟨⟨u, c₃, h₃⟩, hclose, h⟩ := exists_of_bind_eq_ok h
              cases h
              have hne := pairs_ne_nil hpair hlist
              obtain ⟨ls, hrest, hls⟩ := sound_pairs c₁ hlist
              obtain ⟨s, hlast⟩ := Cursor.reads_of_expect Token.eq_of_isToken? hclose
              have hall := hfirst.cons (hrest.trans hlast)
              refine ⟨_, hall, ?_⟩
              show g.WritesExpr _ (g.builder.hashLiteral
                ⟨list, g.builder.locate (g.extent c₁.start c₂)⟩ (g.extent span.start c₃))
              rw [show g.extent span.start c₃ = _ from extent_of_reads hall,
                extent_start_of_reads hrest (ne_nil_of_writesPairs hls hne)]
              exact .hash hls hne
          · obtain ⟨⟨called, c₂, h₂⟩, hcall, h⟩ := exists_of_bind_eq_ok h
            obtain ⟨⟨u, c₃, h₃⟩, hclose, h⟩ := exists_of_bind_eq_ok h
            obtain ⟨⟨e, c₄, h₄⟩, hafter, h⟩ := exists_of_bind_eq_ok h
            cases h
            obtain ⟨ls, hrest, hls⟩ := sound_call c₁ hcall
            obtain ⟨s, hlast⟩ := Cursor.reads_of_expect Token.eq_of_isToken? hclose
            have hall := hfirst.cons (hrest.trans hlast)
            have hsub : g.builder.subExpr called (g.text.slice span.start c₃.last.stop)
                (g.extent span.start c₃) = g.subOf called _ :=
              congrArg (fun x : Span => g.builder.subExpr called (g.text.slice x.start x.stop)
                (Source.extent g.text x)) hall.span_eq
            rw [hsub] at hafter
            exact sound_afterSub hls hall hafter
      | arrayOpen =>
          obtain ⟨⟨list, c₂, h₂⟩, hlist, h⟩ := exists_of_bind_eq_ok (Cursor.eq_ok_of_commit h)
          obtain ⟨⟨u, c₃, h₃⟩, hclose, h⟩ := exists_of_bind_eq_ok h
          cases h
          obtain ⟨ls, hrest, hls⟩ := sound_items c₁ hlist
          obtain ⟨s, hlast⟩ := Cursor.reads_of_expect Token.eq_of_isToken? hclose
          have hall := hfirst.cons (hrest.trans hlast)
          refine ⟨_, hall, ?_⟩
          show g.WritesExpr _ (g.builder.array list (g.extent span.start c₃))
          rw [show g.extent span.start c₃ = _ from extent_of_reads hall]
          exact .array hls
      | string value =>
          cases h
          exact ⟨_, hfirst, hplace ▸ .string⟩
      | number text =>
          cases h
          exact ⟨_, hfirst, hplace ▸ .number⟩
      | boolean value =>
          cases h
          exact ⟨_, hfirst, hplace ▸ .boolean⟩
      | undefined =>
          cases h
          exact ⟨_, hfirst, hplace ▸ .undefined⟩
      | null =>
          cases h
          exact ⟨_, hfirst, hplace ▸ .null⟩
      | _ => cases h
termination_by 2 * c.rest.length

/-- **A call is written by the tokens that are read for it.** -/
theorem sound_call (c : Cursor) {p : Parsed Call c.rest.length} (h : call g c = .ok p) :
    Sound g.WritesCall c p := by
  rw [call] at h
  obtain ⟨⟨head, c₁, h₁⟩, hhead, h⟩ := exists_of_bind_eq_ok h
  obtain ⟨⟨list, c₂, h₂⟩, hlist, h⟩ := exists_of_bind_eq_ok h
  obtain ⟨⟨named, c₃, h₃⟩, hnamed, h⟩ := exists_of_bind_eq_ok h
  cases h
  obtain ⟨ls, hreads, hls⟩ := sound_expr c hhead
  obtain ⟨ls', hreads', hls'⟩ := sound_params c₁ hlist
  obtain ⟨ls'', hreads'', hls''⟩ := sound_pairs c₂ hnamed
  have hhash : g.hashOf c₂.start c₃ named = g.hashAt ls'' named := by
    cases named with
    | nil => rfl
    | cons pair more =>
        show some (Hash.mk _ (g.builder.locate (g.extent c₂.start c₃))) = _
        rw [extent_start_of_reads hreads'' (ne_nil_of_writesPairs hls'' (List.cons_ne_nil _ _))]
        rfl
  refine ⟨_, hreads.trans (hreads'.trans hreads''), ?_⟩
  show g.WritesCall _ ⟨head, list, g.hashOf c₂.start c₃ named⟩
  rw [hhash]
  exact .mk hls hls' hls''
termination_by 2 * c.rest.length + 1

/-- Arguments are written by the tokens that are read for them. -/
theorem sound_params (c : Cursor) {p : Parsed (List Expr) (c.rest.length + 1)}
    (h : params g c = .ok p) : Sound g.WritesExprs c p := by
  rw [params] at h
  split at h
  · obtain ⟨⟨e, c₁, h₁⟩, he, h⟩ := exists_of_bind_eq_ok h
    obtain ⟨⟨more, c₂, h₂⟩, hmore, h⟩ := exists_of_bind_eq_ok h
    cases h
    obtain ⟨ls, hreads, hls⟩ := sound_expr c he
    obtain ⟨ls', hreads', hls'⟩ := sound_params c₁ hmore
    exact ⟨_, hreads.trans hreads', .cons hls hls'⟩
  · cases h
    exact ⟨[], .refl c, .nil⟩
termination_by 2 * c.rest.length + 1

/-- The items of a list are written by the tokens that are read for them. -/
theorem sound_items (c : Cursor) {p : Parsed (List Expr) (c.rest.length + 1)}
    (h : items g c = .ok p) : Sound g.WritesExprs c p := by
  rw [items] at h
  split at h
  · obtain ⟨⟨e, c₁, h₁⟩, he, h⟩ := exists_of_bind_eq_ok h
    obtain ⟨⟨more, c₂, h₂⟩, hmore, h⟩ := exists_of_bind_eq_ok h
    cases h
    obtain ⟨ls, hreads, hls⟩ := sound_expr c he
    obtain ⟨ls', hreads', hls'⟩ := sound_items c₁ hmore
    exact ⟨_, hreads.trans hreads', .cons hls hls'⟩
  · cases h
    exact ⟨[], .refl c, .nil⟩
termination_by 2 * c.rest.length + 1

/-- Named arguments are written by the tokens that are read for them. -/
theorem sound_pairs (c : Cursor) {p : Parsed (List HashPair) (c.rest.length + 1)}
    (h : pairs g c = .ok p) : Sound g.WritesPairs c p := by
  rw [pairs] at h
  split at h
  · next key span c₁ h₁ hnext =>
      split at h
      · next s c₂ h₂ hnext' =>
          obtain ⟨⟨value, c₃, h₃⟩, hvalue, h⟩ := exists_of_bind_eq_ok h
          obtain ⟨⟨more, c₄, h₄⟩, hmore, h⟩ := exists_of_bind_eq_ok h
          cases h
          obtain ⟨ls, hreads, hls⟩ := sound_expr c₂ (Cursor.eq_ok_of_commit hvalue)
          obtain ⟨ls', hreads', hls'⟩ := sound_pairs c₃ hmore
          have hfirst := (Cursor.reads_of_next? hnext).cons
            ((Cursor.reads_of_next? hnext').cons hreads)
          refine ⟨_, hfirst.trans hreads', ?_⟩
          show g.WritesPairs _
            (⟨unbracket key, value, g.builder.locate (g.extent span.start c₃)⟩ :: more)
          rw [show g.extent span.start c₃ = _ from extent_of_reads hfirst]
          exact .cons hls hls'
      · cases h
        exact ⟨[], .refl c, .nil⟩
  · cases h
    exact ⟨[], .refl c, .nil⟩
termination_by 2 * c.rest.length + 1

end

/-! ## Tags -/

theorem writesIdents_idents (c : Cursor) : Sound WritesIdents c (idents c) := by
  rw [idents]
  split
  · next name span c₁ h₁ hnext =>
      obtain ⟨ls, hreads, hls⟩ := writesIdents_idents c₁
      exact ⟨_, (Cursor.reads_of_next? hnext).cons hreads, .cons hls⟩
  · exact ⟨[], .refl c, .nil⟩
termination_by c.rest.length

/-- Block parameters are written by the tokens that are read for them. -/
theorem sound_blockParams {p : Parsed (Option (List Text)) (c.rest.length + 1)}
    (h : blockParams c = .ok p) : Sound WritesNames c p := by
  rw [blockParams] at h
  split at h
  · next span c₁ h₁ hnext =>
      obtain ⟨⟨first, c₂, h₂⟩, hident, h⟩ := exists_of_bind_eq_ok (Cursor.eq_ok_of_commit h)
      obtain ⟨⟨u, c₄, h₄⟩, hclose, h⟩ := exists_of_bind_eq_ok h
      cases h
      obtain ⟨s, hreads⟩ := Cursor.reads_of_expect Token.eq_of_ident? hident
      obtain ⟨ls, hrest, hls⟩ := writesIdents_idents c₂
      obtain ⟨s', hlast⟩ := Cursor.reads_of_expect Token.eq_of_isToken? hclose
      exact ⟨_, (Cursor.reads_of_next? hnext).cons ((hreads.cons hrest).trans hlast),
        .some (.cons hls) (List.cons_ne_nil _ _)⟩
  · cases h
    exact ⟨[], .refl c, .none⟩

/-- The rest of an opening tag, behind its delimiter. -/
theorem sound_opening {named : Bool} {opener : Text} {kind : Opener} {s : Span} {c₀ : Cursor}
    (hkind : named = false ↔ kind = .inclusionBlock)
    (hfirst : c₀.Reads [⟨.opener kind opener, s⟩] c) {p : Parsed BlockOpening c.rest.length}
    (h : opening g named opener c = .ok p) : Sound (g.WritesOpening kind) c₀ p := by
  obtain ⟨⟨called, c₁, h₁⟩, hcall, h⟩ := exists_of_bind_eq_ok (Cursor.eq_ok_of_commit h)
  obtain ⟨ls, hreads, hls⟩ := sound_call c hcall
  dsimp only at h
  split at h
  · next hnamed =>
      obtain ⟨⟨names, c₂, h₂⟩, hnames, h⟩ := exists_of_bind_eq_ok h
      obtain ⟨⟨closer, c₃, h₃⟩, hcloser, h⟩ := exists_of_bind_eq_ok h
      cases h
      obtain ⟨ls', hreads', hls'⟩ := sound_blockParams hnames
      obtain ⟨s', hlast⟩ := Cursor.reads_of_expect Token.eq_of_closer? hcloser
      have hnone : kind = .inclusionBlock → names = none := fun hk =>
        nomatch hnamed.symm.trans (hkind.mpr hk)
      exact ⟨_, hfirst.cons ((hreads.trans hreads').trans hlast), .mk hls hls' hnone⟩
  · next hnamed =>
      obtain ⟨⟨closer, c₂, h₂⟩, hcloser, h⟩ := exists_of_bind_eq_ok h
      cases h
      obtain ⟨s', hlast⟩ := Cursor.reads_of_expect Token.eq_of_closer? hcloser
      have htag := hfirst.cons ((hreads.trans (.refl c₁)).trans hlast)
      exact ⟨_, htag, .mk hls .none fun _ => rfl⟩

/-- A closing tag is written by the tokens that are read for it. -/
theorem sound_closing {p : Parsed BlockClosing c.rest.length} (h : closing g c = .ok p) :
    Sound g.WritesClosing c p := by
  obtain ⟨⟨opener, c₁, h₁⟩, hopener, h⟩ := exists_of_bind_eq_ok h
  obtain ⟨⟨path, c₂, h₂⟩, hpath, h⟩ := exists_of_bind_eq_ok (Cursor.eq_ok_of_commit h)
  obtain ⟨⟨closer, c₃, h₃⟩, hcloser, h⟩ := exists_of_bind_eq_ok h
  cases h
  obtain ⟨s, hfirst⟩ := Cursor.reads_of_expect Token.eq_of_blockClose? hopener
  obtain ⟨ls, hreads, hls⟩ := sound_expr c₁ hpath
  obtain ⟨s', hlast⟩ := Cursor.reads_of_expect Token.eq_of_closer? hcloser
  exact ⟨_, hfirst.cons (hreads.trans hlast), .mk hls⟩

/-- A mustache is written by its delimiter and the tokens behind it. -/
theorem sound_mustache {unescaped : Bool} {opener : Text} {s : Span} {c₀ : Cursor}
    (hfirst : c₀.Reads [⟨.opener (if unescaped then .unescaped else .plain) opener, s⟩] c)
    {p : Parsed Statement c.rest.length} (h : mustache g s.start unescaped opener c = .ok p) :
    Sound g.WritesStatement c₀ p := by
  obtain ⟨⟨called, c₁, h₁⟩, hcall, hend⟩ := exists_of_bind_eq_ok (Cursor.eq_ok_of_commit h)
  obtain ⟨ls, hreads, hls⟩ := sound_call c hcall
  dsimp only at hend
  split at hend
  · next hunescaped =>
      obtain rfl : unescaped = true := hunescaped
      obtain ⟨⟨closer, c₂, h₂⟩, hcloser, hend⟩ := exists_of_bind_eq_ok hend
      cases hend
      obtain ⟨s', hlast⟩ := Cursor.reads_of_expect Token.eq_of_unescapedCloser? hcloser
      have hall := hfirst.cons (hreads.trans hlast)
      refine ⟨_, hall, ?_⟩
      show g.WritesStatement _ (g.builder.mustache opener called _ (g.extent s.start c₂))
      rw [show g.extent s.start c₂ = _ from extent_of_reads hall]
      exact .unescaped hls
  · next hunescaped =>
      obtain rfl : unescaped = false := Bool.eq_false_iff.mpr hunescaped
      obtain ⟨⟨closer, c₂, h₂⟩, hcloser, hend⟩ := exists_of_bind_eq_ok hend
      cases hend
      obtain ⟨s', hlast⟩ := Cursor.reads_of_expect Token.eq_of_closer? hcloser
      have hall := hfirst.cons (hreads.trans hlast)
      refine ⟨_, hall, ?_⟩
      show g.WritesStatement _ (g.builder.mustache opener called _ (g.extent s.start c₂))
      rw [show g.extent s.start c₂ = _ from extent_of_reads hall]
      exact .plain hls

/-- A partial is written by its delimiter and the tokens behind it. -/
theorem sound_inclusion {opener : Text} {s : Span} {c₀ : Cursor}
    (hfirst : c₀.Reads [⟨.opener .inclusion opener, s⟩] c) {p : Parsed Statement c.rest.length}
    (h : inclusion g s.start opener c = .ok p) : Sound g.WritesStatement c₀ p := by
  obtain ⟨⟨called, c₁, h₁⟩, hcall, h⟩ := exists_of_bind_eq_ok (Cursor.eq_ok_of_commit h)
  obtain ⟨⟨closer, c₂, h₂⟩, hcloser, h⟩ := exists_of_bind_eq_ok h
  cases h
  obtain ⟨ls, hreads, hls⟩ := sound_call c hcall
  obtain ⟨s', hlast⟩ := Cursor.reads_of_expect Token.eq_of_closer? hcloser
  have hall := hfirst.cons (hreads.trans hlast)
  refine ⟨_, hall, ?_⟩
  show g.WritesStatement _ (g.builder.inclusion called _ (g.extent s.start c₂))
  rw [show g.extent s.start c₂ = _ from extent_of_reads hall]
  exact .inclusion hls

/-! ## Raw blocks -/

theorem writesContents_contents (c : Cursor) : Sound g.WritesContents c (contents g c) := by
  rw [contents]
  split
  · next text span c₁ h₁ hnext =>
      have hfirst := Cursor.reads_of_next? hnext
      obtain ⟨ls, hreads, hls⟩ := writesContents_contents c₁
      refine ⟨_, hfirst.cons hreads, ?_⟩
      show g.WritesContents _ (g.builder.content text (g.extent span.start c₁) :: _)
      rw [show g.extent span.start c₁ = _ from extent_of_reads hfirst]
      exact .cons hls
  · exact ⟨[], .refl c, .nil⟩
termination_by c.rest.length

/-- A raw block is written by its delimiter and the tokens behind it. -/
theorem sound_rawBlock {s : Span} {c₀ : Cursor} (hfirst : c₀.Reads [⟨.rawOpener, s⟩] c)
    {p : Parsed Statement c.rest.length} (h : rawBlock g s.start c = .ok p) :
    Sound g.WritesStatement c₀ p := by
  obtain ⟨⟨called, c₁, h₁⟩, hcall, h⟩ := exists_of_bind_eq_ok (Cursor.eq_ok_of_commit h)
  obtain ⟨⟨u, c₂, h₂⟩, hopen, h⟩ := exists_of_bind_eq_ok h
  obtain ⟨⟨name, c₄, h₄⟩, hname, h⟩ := exists_of_bind_eq_ok h
  obtain ⟨block, hblock, h⟩ := exists_of_bind_eq_ok h
  cases h
  obtain ⟨ls, hreads, hls⟩ := sound_call c hcall
  obtain ⟨s', hmiddle⟩ := Cursor.reads_of_expect Token.eq_of_isToken? hopen
  obtain ⟨ls', hreads', hls'⟩ := writesContents_contents (g := g) c₂
  obtain ⟨s'', hlast⟩ := Cursor.reads_of_expect Token.eq_of_rawEnd? hname
  have hall := hfirst.cons (hreads.trans (hmiddle.cons (hreads'.trans hlast)))
  have hblock := Refusal.eq_ok_of_lift hblock
  rw [show g.extent s.start c₄ = _ from extent_of_reads hall] at hblock
  exact ⟨_, hall, .rawBlock hls hls' hblock⟩

/-! ## Statements -/

/-- A production that starts with an opening tag covers its tokens. -/
theorem extent_of_writesOpening {kind : Opener} {head : BlockOpening} {l : Lexeme} {c₁ : Cursor}
    (hfirst : c.Reads [l] c₁) (hhead : g.WritesOpening kind ls head) {ls' : List Lexeme}
    (hall : c.Reads (ls ++ ls') c') : g.extent l.span.start c' = g.extentOf (ls ++ ls') := by
  have hne : ls ≠ [] := by
    cases hhead with
    | mk _ _ _ => exact List.cons_ne_nil _ _
  rw [← hfirst.start_eq]
  exact extent_start_of_reads hall (List.append_ne_nil_of_left_ne_nil hne ls')

/-- A block of either kind, whose parts are written as they should be. -/
theorem writesStatement_block {kind : Opener} {inverted : Bool}
    (hkind : kind = if inverted then .inverse else .block) {opener : Text} {span : Span}
    {c₁ c₂ c₃ c₄ c₅ : Cursor} {head : BlockOpening} {body : List Statement}
    {other : Option ElseSection} {tail : BlockClosing} {block : Statement}
    (hfirst : c.Reads [⟨.opener kind opener, span⟩] c₁)
    (hhead : ∃ ls, c.Reads ls c₂ ∧ g.WritesOpening kind ls head)
    (hbody : ∃ ls, c₂.Reads ls c₃ ∧ g.WritesStatements ls body)
    (hother : ∃ ls, c₃.Reads ls c₄ ∧ g.WritesSection (!inverted) ls other)
    (htail : ∃ ls, c₄.Reads ls c₅ ∧ g.WritesClosing ls tail)
    (hblock : Refusal.lift (g.builder.block head (Builder.program body none) other (some tail)
      inverted (g.extent span.start c₅)) = .ok block) :
    ∃ ls, c.Reads ls c₅ ∧ g.WritesStatement ls block := by
  subst hkind
  obtain ⟨ls₁, hreads₁, hls₁⟩ := hhead
  obtain ⟨ls₂, hreads₂, hls₂⟩ := hbody
  obtain ⟨ls₃, hreads₃, hls₃⟩ := hother
  obtain ⟨ls₄, hreads₄, hls₄⟩ := htail
  have hall := hreads₁.trans (hreads₂.trans (hreads₃.trans hreads₄))
  have hblock := Refusal.eq_ok_of_lift hblock
  rw [show g.extent span.start c₅ = _ from extent_of_writesOpening hfirst hls₁ hall] at hblock
  exact ⟨_, hall, .block hls₁ hls₂ hls₃ hls₄ hblock⟩

mutual

/-- **Statements are written by the tokens that are read for them.** -/
theorem sound_statements (c : Cursor) {p : Parsed (List Statement) (c.rest.length + 1)}
    (h : statements g c = .ok p) : Sound g.WritesStatements c p := by
  rw [statements] at h
  split at h
  · obtain ⟨⟨s, c₁, h₁⟩, hs, h⟩ := exists_of_bind_eq_ok h
    obtain ⟨⟨more, c₂, h₂⟩, hmore, h⟩ := exists_of_bind_eq_ok h
    cases h
    obtain ⟨ls, hreads, hls⟩ := sound_statement c hs
    obtain ⟨ls', hreads', hls'⟩ := sound_statements c₁ hmore
    exact ⟨_, hreads.trans hreads', .cons hls hls'⟩
  · cases h
    exact ⟨[], .refl c, .nil⟩
termination_by 2 * c.rest.length + 1

/-- A statement is written by the tokens that are read for it. -/
theorem sound_statement (c : Cursor) {p : Parsed Statement c.rest.length}
    (h : statement g c = .ok p) : Sound g.WritesStatement c p := by
  rw [statement] at h
  split at h
  · cases h
  · next token span c₁ h₁ hnext =>
      have hfirst := Cursor.reads_of_next? hnext
      have hplace : g.extent span.start c₁ = g.extentOf _ := extent_of_reads hfirst
      cases token with
      | content text =>
          cases h
          exact ⟨_, hfirst, hplace ▸ .content⟩
      | comment text =>
          cases h
          exact ⟨_, hfirst, hplace ▸ .comment⟩
      | opener kind opener =>
          cases kind with
          | plain | unescaped =>
              obtain ⟨⟨s, c₂, h₂⟩, hs, h⟩ := exists_of_bind_eq_ok h
              cases h
              have hsound := sound_mustache hfirst hs
              exact hsound
          | inclusion =>
              obtain ⟨⟨s, c₂, h₂⟩, hs, h⟩ := exists_of_bind_eq_ok h
              cases h
              have hsound := sound_inclusion hfirst hs
              exact hsound
          | block | inverse =>
              obtain ⟨⟨head, c₂, h₂⟩, hhead, h⟩ := exists_of_bind_eq_ok h
              obtain ⟨⟨body, c₃, h₃⟩, hbody, h⟩ := exists_of_bind_eq_ok (Cursor.eq_ok_of_commit h)
              obtain ⟨⟨other, c₄, h₄⟩, hother, h⟩ := exists_of_bind_eq_ok h
              obtain ⟨⟨tail, c₅, h₅⟩, htail, h⟩ := exists_of_bind_eq_ok h
              obtain ⟨block, hblock, h⟩ := exists_of_bind_eq_ok h
              cases h
              exact writesStatement_block (by rfl) hfirst
                (sound_opening (by decide) hfirst hhead) (sound_statements c₂ hbody)
                (sound_section? c₃ hother) (sound_closing htail) hblock
          | inclusionBlock =>
              obtain ⟨⟨head, c₂, h₂⟩, hhead, h⟩ := exists_of_bind_eq_ok h
              obtain ⟨⟨body, c₃, h₃⟩, hbody, h⟩ := exists_of_bind_eq_ok (Cursor.eq_ok_of_commit h)
              obtain ⟨⟨tail, c₄, h₄⟩, htail, h⟩ := exists_of_bind_eq_ok h
              obtain ⟨block, hblock, h⟩ := exists_of_bind_eq_ok h
              cases h
              obtain ⟨ls, hreads, hls⟩ := sound_opening (by decide) hfirst hhead
              obtain ⟨ls', hreads', hls'⟩ := sound_statements c₂ hbody
              obtain ⟨ls'', hreads'', hls''⟩ := sound_closing htail
              have hall := hreads.trans (hreads'.trans hreads'')
              have hblock := Refusal.eq_ok_of_lift hblock
              rw [show g.extent span.start c₄ = _ from extent_of_writesOpening hfirst hls hall]
                at hblock
              exact ⟨_, hall, .inclusionBlock hls hls' hls'' hblock⟩
          | close | chain => cases h
      | rawOpener =>
          obtain ⟨⟨s, c₂, h₂⟩, hs, h⟩ := exists_of_bind_eq_ok h
          cases h
          have hsound := sound_rawBlock hfirst hs
          exact hsound
      | _ => cases h
termination_by 2 * c.rest.length

/-- An else section is written by the tokens that are read for it. -/
theorem sound_section? {chains : Bool} (c : Cursor)
    {p : Parsed (Option ElseSection) (c.rest.length + 1)} (h : section? g chains c = .ok p) :
    Sound (g.WritesSection chains) c p := by
  rw [section?] at h
  split at h
  · next text span c₁ h₁ hnext =>
      obtain ⟨⟨body, c₂, h₂⟩, hbody, h⟩ := exists_of_bind_eq_ok h
      cases h
      obtain ⟨ls, hreads, hls⟩ := sound_statements c₁ hbody
      exact ⟨_, (Cursor.reads_of_next? hnext).cons hreads, .plain hls⟩
  · next opener span c₁ h₁ hnext =>
      split at h
      · next hchains =>
          obtain rfl : chains = true := hchains
          obtain ⟨⟨head, c₂, h₂⟩, hhead, h⟩ := exists_of_bind_eq_ok h
          obtain ⟨⟨body, c₃, h₃⟩, hbody, h⟩ := exists_of_bind_eq_ok (Cursor.eq_ok_of_commit h)
          obtain ⟨⟨other, c₄, h₄⟩, hother, h⟩ := exists_of_bind_eq_ok h
          obtain ⟨block, hblock, h⟩ := exists_of_bind_eq_ok h
          cases h
          have hfirst := Cursor.reads_of_next? hnext
          obtain ⟨ls, hreads, hls⟩ := sound_opening (by decide) hfirst hhead
          obtain ⟨ls', hreads', hls'⟩ := sound_statements c₂ hbody
          obtain ⟨ls'', hreads'', hls''⟩ := sound_section? c₃ hother
          have hall := hreads.trans (hreads'.trans hreads'')
          have hblock := Refusal.eq_ok_of_lift hblock
          rw [show g.extent span.start c₄ = _ from extent_of_writesOpening hfirst hls hall]
            at hblock
          exact ⟨_, hall, .link hls hls' hls'' hblock⟩
      · cases h
        exact ⟨[], .refl c, .none⟩
  · cases h
    exact ⟨[], .refl c, .none⟩
termination_by 2 * c.rest.length

end

/-- All of the tokens write the program that the grammar returns. -/
theorem writesProgram_of_program {p : Program} (h : g.program ls = .ok p) :
    g.WritesProgram ls p := by
  obtain ⟨⟨body, c, hc⟩, hbody, h⟩ := exists_of_bind_eq_ok h
  obtain ⟨ls', hreads, hls⟩ := sound_statements _ hbody
  dsimp only at h
  split at h
  · next hempty =>
      cases h
      have hall : ls = ls' := by
        have hrest := hreads.rest_eq
        rw [List.isEmpty_iff.mp hempty, List.append_nil] at hrest
        exact hrest
      rw [hall]
      exact .mk hls
  · exact nomatch Cursor.eq_ok_of_commit h

end Grammar
end Stache
