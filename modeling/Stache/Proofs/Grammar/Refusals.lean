import Stache.Proofs.Grammar.Complete
import Stache.Proofs.Grammar.Located

/-!
# What a refusal points at

A refusal is about tokens that stand side by side.  Where another token was expected these
are the tokens from the start of the innermost committed production up to the one that does
not fit.  An error of the builder shows nodes, and a node has the place of its tokens.

`PointsInto g ls rest` says this of a refusal: its nodes are written in `ls`, and the token
that does not fit is one of `rest`, what was left when the production started.  A node may
start in front of it, with the delimiter of its tag.  The lemmas go through the productions
one by one, and `pointsInto_program` sums them up.
-/

namespace Stache

/-! ## Errors of the builder -/

namespace Builder

variable {b : Builder} {e : BuildError} {l : Label} {x : Extent}

/-- A path is refused for one reason only, and as a whole. -/
theorem eq_of_path_eq_error {data : Bool} {sub? : Option SubExpr} {segments : List Segment}
    (h : b.path data sub? segments x = .error e) :
    ∃ written, e = .invalidPath written (b.locate x) := by
  unfold path at h
  dsimp only at h
  split at h
  · cases h
    exact ⟨_, rfl⟩
  · cases h

/-- The labels of a wrong closing tag show the head of the block and the name in the tag. -/
theorem label_of_checkClose {opened : Expr} {closed : Option Text} {closedAt : Option Location}
    (h : checkClose opened closed closedAt = .error e) (hl : l ∈ e.diagnostic.labels) :
    l.loc = opened.loc ∨ closedAt = some l.loc := by
  have hlabels : e.diagnostic.labels.map Label.loc = opened.loc :: closedAt.toList := by
    unfold checkClose at h
    split at h
    · dsimp only at h
      split at h
      · cases h
      · cases h
        cases closedAt <;> rfl
    · cases h
      cases closedAt <;> rfl
  have hloc : l.loc ∈ opened.loc :: closedAt.toList := hlabels ▸ List.mem_map_of_mem hl
  rcases List.mem_cons.mp hloc with hloc | hloc
  · exact .inl hloc
  · exact .inr (Option.mem_toList.mp hloc)

/-- A refused else section is shown at the place that the block gives it. -/
theorem label_of_inverseProgram {decorator : Bool} {closing : Strip} {loc : Location}
    {other : Option ElseSection} (h : inverseProgram decorator closing loc other = .error e)
    (hl : l ∈ e.diagnostic.labels) : l.loc = loc := by
  have hlabels : e.diagnostic.labels.map Label.loc = [loc] := by
    unfold inverseProgram at h
    split at h
    · cases h
    · split at h
      · cases h
        rfl
      · split at h
        · split at h <;> cases h
          rfl
        · cases h
  have hloc : l.loc ∈ [loc] := hlabels ▸ List.mem_map_of_mem hl
  exact List.mem_singleton.mp hloc

/-- The labels of a refused block show its head, the name in its closing tag or all of it. -/
theorem label_of_block {head : BlockOpening} {program : Program} {other : Option ElseSection}
    {tail : Option BlockClosing} {inverted : Bool}
    (h : b.block head program other tail inverted x = .error e) (hl : l ∈ e.diagnostic.labels) :
    l.loc = head.call.head.loc ∨
      (∃ name, tail.bind BlockClosing.path = some name ∧ l.loc = name.loc) ∨
      l.loc = b.locate x := by
  rw [block] at h
  dsimp only at h
  split at h
  · next name htail =>
      rcases Grammar.error_of_bind_eq_error h with h | ⟨u, h⟩
      · rcases label_of_checkClose h hl with hloc | hloc
        · exact .inl hloc
        · exact .inr (.inl ⟨name, htail, (Option.some.inj hloc).symm⟩)
      · rcases Grammar.error_of_bind_eq_error h with h | ⟨inverse, h⟩
        · exact .inr (.inr (label_of_inverseProgram h hl))
        · cases h
  · rcases Grammar.error_of_bind_eq_error h with h | ⟨inverse, h⟩
    · exact .inr (.inr (label_of_inverseProgram h hl))
    · cases h

/-- A raw block whose names do not match is shown at its head. -/
theorem label_of_rawBlock {called : Call} {body : List Statement} {name : Text}
    (h : b.rawBlock called body name x = .error e) (hl : l ∈ e.diagnostic.labels) :
    l.loc = called.head.loc := by
  rcases Grammar.error_of_bind_eq_error h with h | ⟨u, h⟩
  · exact (label_of_checkClose h hl).resolve_right nofun
  · cases h

/-- A partial block whose names do not match is shown at its head. -/
theorem label_of_inclusionBlock {head : BlockOpening} {program : Program} {tail : BlockClosing}
    (h : b.inclusionBlock head program tail x = .error e) (hl : l ∈ e.diagnostic.labels) :
    l.loc = head.call.head.loc := by
  rcases Grammar.error_of_bind_eq_error h with h | ⟨u, h⟩
  · exact (label_of_checkClose h hl).resolve_right nofun
  · cases h

end Builder

namespace Cursor.Reads

variable {c c' : Cursor} {ls : List Lexeme}

/-- What a cursor reads is a piece of what was left. -/
theorem isInfix (h : c.Reads ls c') : ls <:+: c.rest :=
  h.rest_eq ▸ (List.prefix_append ls c'.rest).isInfix

/-- What is left behind is a piece of what was left. -/
theorem rest_isInfix (h : c.Reads ls c') : c'.rest <:+: c.rest :=
  h.rest_eq ▸ (List.suffix_append ls c'.rest).isInfix

end Cursor.Reads

/-! ## Refusals -/

/-- The error shows nodes that some of the tokens write.  An else chain breaks off only if
one of the tokens is a link with a `*`. -/
structure BuildError.PointsInto (g : Grammar) (ls : List Lexeme) (e : BuildError) : Prop where
  labels : ∀ l ∈ e.diagnostic.labels, ∃ own, own <:+: ls ∧ own ≠ [] ∧ l.loc = g.place own
  chain : e.code = .brokenChain → Grammar.Starred (Grammar.tokensOf ls)

/-- The refusal shows nodes that some of `ls` write, or some of `rest`, from the first token of
a production up to the one that does not fit. -/
def Refusal.PointsInto (g : Grammar) (ls rest : List Lexeme) : Refusal → Prop
  | .rejected e => e.PointsInto g ls
  | .mismatch _ _ none => True
  | .mismatch _ since (some found) =>
      ∃ l own, l :: own <:+: rest ∧ since.getD found = l.span ∧ found = endOf l.span own

namespace Grammar

/-- If the production fails, its refusal shows some of the tokens. -/
def PointsInto (g : Grammar) (ls rest : List Lexeme) {α : Type} (x : Except Refusal α) : Prop :=
  ∀ r, x = .error r → r.PointsInto g ls rest

section PointsInto

variable {α β : Type} {g : Grammar} {c c' : Cursor} {ls ls' rest rest' own : List Lexeme}
  {x : Except Refusal α} {e : BuildError}

theorem PointsInto.ok {a : α} : PointsInto g ls rest (.ok a : Except Refusal α) := nofun

/-- A refusal that points into some tokens points into more of them. -/
theorem PointsInto.mono (h : PointsInto g ls rest x) (hls : ls <:+: ls')
    (hrest : rest <:+: rest') : PointsInto g ls' rest' x := by
  intro r hr
  have hr := h r hr
  cases r with
  | rejected e =>
      refine ⟨fun l hl => ?_, fun hcode => ?_⟩
      · obtain ⟨own, hown, hne, hloc⟩ := hr.labels l hl
        exact ⟨own, hown.trans hls, hne, hloc⟩
      · exact (hr.chain hcode).mono (hls.map Lexeme.token).subset
  | mismatch expected since found =>
      cases found with
      | none => trivial
      | some found =>
          obtain ⟨l, own, hown, hsince, hfound⟩ := hr
          exact ⟨l, own, hown.trans hrest, hsince, hfound⟩

/-- What is refused behind some tokens is refused in front of them. -/
theorem PointsInto.behind (h : PointsInto g c'.rest c'.rest x) (hreads : c.Reads own c') :
    PointsInto g c.rest c.rest x := h.mono hreads.rest_isInfix hreads.rest_isInfix

/-- A production points into its tokens if both of its parts do. -/
theorem PointsInto.bind {f : α → Except Refusal β} (hx : PointsInto g ls rest x)
    (hf : ∀ a, x = .ok a → PointsInto g ls rest (f a)) : PointsInto g ls rest (x >>= f) := by
  intro r hr
  cases x with
  | ok a => exact hf a rfl r hr
  | error r' =>
      cases hr
      exact hx r rfl

/-- A node that the builder makes or refuses. -/
theorem PointsInto.lift {r : Except BuildError α}
    (h : ∀ e, r = .error e → e.PointsInto g ls) : PointsInto g ls rest (Refusal.lift r) := by
  intro refusal hrefusal
  cases r with
  | ok a => cases hrefusal
  | error e =>
      cases hrefusal
      exact h e rfl

/-- A production that refuses its first token points at it. -/
theorem pointsInto_refuse {expected : Expected} :
    PointsInto g ls c.rest (c.refuse expected : Except Refusal α) := by
  rintro _ ⟨⟩
  obtain ⟨last, rest⟩ := c
  cases rest with
  | nil => trivial
  | cons l rest => exact ⟨l, [], (List.prefix_append [l] rest).isInfix, rfl, rfl⟩

/-- A token that does not fit is pointed at. -/
theorem pointsInto_expect {expected : Expected} {pick : Token → Option α} :
    PointsInto g ls c.rest (c.expect expected pick) := by
  unfold Cursor.expect
  split
  · exact pointsInto_refuse
  · split
    · exact .ok
    · exact pointsInto_refuse

/-- A committed production shows all of its tokens up to the one that does not fit. -/
theorem PointsInto.commit (h : PointsInto g ls c.rest x) :
    PointsInto g ls c.rest (c.commit x) := by
  intro r hr
  unfold Cursor.commit at hr
  split at hr
  · next expected found =>
      cases hr
      cases found with
      | none => trivial
      | some found =>
          obtain ⟨l, own, ⟨front, back, hrest⟩, -, hfound⟩ := h _ rfl
          obtain ⟨last, rest⟩ := c
          obtain rfl : front ++ l :: own ++ back = rest := hrest
          cases front with
          | nil => exact ⟨l, own, ⟨[], back, rfl⟩, rfl, hfound⟩
          | cons l' front =>
              refine ⟨l', front ++ l :: own, ⟨[], back, rfl⟩, rfl, ?_⟩
              rw [endOf_append]
              exact hfound
  · exact h r hr

end PointsInto

/-! ## Paths -/

variable {g : Grammar} {c c' : Cursor}

/-- What a path misses behind a separator is pointed at. -/
theorem pointsInto_moreSegments (c : Cursor) :
    PointsInto g c.rest c.rest (moreSegments c) := by
  rw [moreSegments]
  split
  · next kind s c₁ h₁ hnext =>
      have hfirst := Cursor.reads_of_next? hnext
      refine .bind (pointsInto_expect.commit.behind hfirst) ?_
      rintro ⟨name, c₂, h₂⟩ hident
      obtain ⟨s', hreads⟩ :=
        Cursor.reads_of_expect Token.eq_of_ident? (Cursor.eq_ok_of_commit hident)
      refine .bind ((pointsInto_moreSegments c₂).behind (hfirst.cons hreads)) ?_
      exact fun _ _ => .ok
  · exact .ok
termination_by c.rest.length

theorem pointsInto_segments : PointsInto g c.rest c.rest (segments c) := by
  refine .bind pointsInto_expect ?_
  rintro ⟨name, c₁, h₁⟩ hident
  obtain ⟨s, hreads⟩ := Cursor.reads_of_expect Token.eq_of_ident? hident
  exact .bind ((pointsInto_moreSegments c₁).behind hreads) fun _ _ => .ok

/-- A refused path is shown as a whole. -/
theorem pointsInto_path {ls own : List Lexeme} {data : Bool} {sub? : Option SubExpr}
    {segments : List Segment} {x : Extent} {e : BuildError} (hown : own <:+: ls) (hne : own ≠ [])
    (hx : x = g.extentOf own) (h : g.builder.path data sub? segments x = .error e) :
    e.PointsInto g ls := by
  obtain ⟨written, rfl⟩ := Builder.eq_of_path_eq_error h
  refine ⟨fun l hl => ⟨own, hown, hne, ?_⟩, nofun⟩
  rw [List.mem_singleton.mp hl, place, ← hx]

/-- The path that goes on from a call is refused together with the call. -/
theorem pointsInto_afterSub {sub : SubExpr} {l : Lexeme} {own : List Lexeme}
    (hreads : c.Reads (l :: own) c') :
    PointsInto g c.rest c'.rest (afterSub g l.span.start sub c') := by
  rw [afterSub]
  split
  · next kind s c₁ h₁ hnext =>
      have hnext := Cursor.reads_of_next? hnext
      have hall := hreads.trans hnext
      refine .bind (pointsInto_segments.mono hall.rest_isInfix hnext.rest_isInfix) ?_
      rintro ⟨more, c₂, h₂⟩ hmore
      obtain ⟨ls, hrest, hls⟩ := sound_segments hmore
      have hall := hall.trans hrest
      refine .bind (.lift fun e he => ?_) fun _ _ => .ok
      exact pointsInto_path hall.isInfix nofun (extent_of_reads hall) he
  · exact .ok

/-! ## Expressions -/

mutual

/-- An expression points into its tokens. The node behind a parenthesis starts with it, in
front of what is committed. -/
theorem pointsInto_expr (c : Cursor) : PointsInto g c.rest c.rest (expr g c) := by
  rw [expr]
  split
  · exact pointsInto_refuse
  · next token span c₁ h₁ hnext =>
      have hfirst := Cursor.reads_of_next? hnext
      cases token with
      | ident name =>
          refine .bind ((pointsInto_moreSegments c₁).behind hfirst) ?_
          rintro ⟨more, c₂, h₂⟩ hmore
          obtain ⟨ls, hrest, -⟩ := sound_moreSegments c₁ hmore
          have hall := hfirst.cons hrest
          refine .bind (.lift fun e he => ?_) fun _ _ => .ok
          exact pointsInto_path hall.isInfix nofun (extent_of_reads hall) he
      | data =>
          refine .bind (pointsInto_segments.commit.behind hfirst) ?_
          rintro ⟨more, c₂, h₂⟩ hmore
          obtain ⟨ls, hrest, -⟩ := sound_segments (Cursor.eq_ok_of_commit hmore)
          have hall := hfirst.cons hrest
          refine .bind (.lift fun e he => ?_) fun _ _ => .ok
          exact pointsInto_path hall.isInfix nofun (extent_of_reads hall) he
      | parenOpen =>
          refine PointsInto.mono (.commit ?_) (List.infix_refl c.rest) hfirst.rest_isInfix
          split
          · refine .bind ((pointsInto_pairs c₁).mono hfirst.rest_isInfix (List.infix_refl _)) ?_
            rintro ⟨list, c₂, h₂⟩ hlist
            obtain ⟨ls, hrest, -⟩ := sound_pairs c₁ hlist
            refine .bind ?_ fun _ _ => .ok
            exact pointsInto_expect.mono (List.infix_refl _) hrest.rest_isInfix
          · refine .bind ((pointsInto_call c₁).mono hfirst.rest_isInfix (List.infix_refl _)) ?_
            rintro ⟨called, c₂, h₂⟩ hcall
            obtain ⟨ls, hrest, -⟩ := sound_call c₁ hcall
            refine .bind (pointsInto_expect.mono (List.infix_refl _) hrest.rest_isInfix) ?_
            rintro ⟨u, c₃, h₃⟩ hclose
            obtain ⟨s, hlast⟩ := Cursor.reads_of_expect Token.eq_of_isToken? hclose
            have hinner := hrest.trans hlast
            refine .bind ?_ fun _ _ => .ok
            exact (pointsInto_afterSub (hfirst.cons hinner)).mono (List.infix_refl _)
              hinner.rest_isInfix
      | arrayOpen =>
          refine PointsInto.behind (.commit (.bind (pointsInto_items c₁) ?_)) hfirst
          rintro ⟨list, c₂, h₂⟩ hlist
          obtain ⟨ls, hrest, -⟩ := sound_items c₁ hlist
          exact .bind (pointsInto_expect.behind hrest) fun _ _ => .ok
      | string | number | boolean | undefined | null => exact .ok
      | _ => exact pointsInto_refuse
termination_by 2 * c.rest.length

/-- A call points into its tokens. -/
theorem pointsInto_call (c : Cursor) : PointsInto g c.rest c.rest (call g c) := by
  rw [call]
  refine .bind (pointsInto_expr c) ?_
  rintro ⟨head, c₁, h₁⟩ hhead
  obtain ⟨ls, hreads, -⟩ := sound_expr c hhead
  refine .bind ((pointsInto_params c₁).behind hreads) ?_
  rintro ⟨list, c₂, h₂⟩ hlist
  obtain ⟨ls', hreads', -⟩ := sound_params c₁ hlist
  exact .bind ((pointsInto_pairs c₂).behind (hreads.trans hreads')) fun _ _ => .ok
termination_by 2 * c.rest.length + 1

theorem pointsInto_params (c : Cursor) : PointsInto g c.rest c.rest (params g c) := by
  rw [params]
  split
  · refine .bind (pointsInto_expr c) ?_
    rintro ⟨e, c₁, h₁⟩ he
    obtain ⟨ls, hreads, -⟩ := sound_expr c he
    exact .bind ((pointsInto_params c₁).behind hreads) fun _ _ => .ok
  · exact .ok
termination_by 2 * c.rest.length + 1

theorem pointsInto_items (c : Cursor) : PointsInto g c.rest c.rest (items g c) := by
  rw [items]
  split
  · refine .bind (pointsInto_expr c) ?_
    rintro ⟨e, c₁, h₁⟩ he
    obtain ⟨ls, hreads, -⟩ := sound_expr c he
    exact .bind ((pointsInto_items c₁).behind hreads) fun _ _ => .ok
  · exact .ok
termination_by 2 * c.rest.length + 1

theorem pointsInto_pairs (c : Cursor) : PointsInto g c.rest c.rest (pairs g c) := by
  rw [pairs]
  split
  · next key span c₁ h₁ hnext =>
      split
      · next s c₂ h₂ hnext' =>
          have hfirst := (Cursor.reads_of_next? hnext).cons (Cursor.reads_of_next? hnext')
          refine .bind ((pointsInto_expr c₂).commit.behind hfirst) ?_
          rintro ⟨value, c₃, h₃⟩ hvalue
          obtain ⟨ls, hreads, -⟩ := sound_expr c₂ (Cursor.eq_ok_of_commit hvalue)
          exact .bind ((pointsInto_pairs c₃).behind (hfirst.trans hreads)) fun _ _ => .ok
      · exact .ok
  · exact .ok
termination_by 2 * c.rest.length + 1

end

/-! ## Tags -/

theorem pointsInto_blockParams : PointsInto g c.rest c.rest (blockParams c) := by
  rw [blockParams]
  split
  · next span c₁ h₁ hnext =>
      have hfirst := Cursor.reads_of_next? hnext
      refine PointsInto.behind (.commit (.bind pointsInto_expect ?_)) hfirst
      rintro ⟨first, c₂, h₂⟩ hident
      obtain ⟨s, hreads⟩ := Cursor.reads_of_expect Token.eq_of_ident? hident
      obtain ⟨ls, hrest, -⟩ := writesIdents_idents c₂
      exact .bind (pointsInto_expect.behind (hreads.trans hrest)) fun _ _ => .ok
  · exact .ok

/-- An opening tag points into its tokens. -/
theorem pointsInto_opening {named : Bool} {opener : Text} :
    PointsInto g c.rest c.rest (opening g named opener c) := by
  refine .commit (.bind (pointsInto_call c) ?_)
  rintro ⟨called, c₁, h₁⟩ hcall
  obtain ⟨ls, hreads, -⟩ := sound_call c hcall
  dsimp only
  split
  · refine .bind (pointsInto_blockParams.behind hreads) ?_
    rintro ⟨names, c₂, h₂⟩ hnames
    obtain ⟨ls', hreads', -⟩ := sound_blockParams hnames
    exact .bind (pointsInto_expect.behind (hreads.trans hreads')) fun _ _ => .ok
  · exact .bind (pointsInto_expect.behind hreads) fun _ _ => .ok

/-- A closing tag points into its tokens. -/
theorem pointsInto_closing : PointsInto g c.rest c.rest (closing g c) := by
  refine .bind pointsInto_expect ?_
  rintro ⟨opener, c₁, h₁⟩ hopener
  obtain ⟨s, hfirst⟩ := Cursor.reads_of_expect Token.eq_of_blockClose? hopener
  refine PointsInto.behind (.commit (.bind (pointsInto_expr c₁) ?_)) hfirst
  rintro ⟨path, c₂, h₂⟩ hpath
  obtain ⟨ls, hreads, -⟩ := sound_expr c₁ hpath
  exact .bind (pointsInto_expect.behind hreads) fun _ _ => .ok

/-- A mustache points into its tokens. -/
theorem pointsInto_mustache {start : Nat} {unescaped : Bool} {opener : Text} :
    PointsInto g c.rest c.rest (mustache g start unescaped opener c) := by
  refine .commit (.bind (pointsInto_call c) ?_)
  rintro ⟨called, c₁, h₁⟩ hcall
  obtain ⟨ls, hreads, -⟩ := sound_call c hcall
  dsimp only
  split
  · exact .bind (pointsInto_expect.behind hreads) fun _ _ => .ok
  · exact .bind (pointsInto_expect.behind hreads) fun _ _ => .ok

theorem pointsInto_inclusion {start : Nat} {opener : Text} :
    PointsInto g c.rest c.rest (inclusion g start opener c) := by
  refine .commit (.bind (pointsInto_call c) ?_)
  rintro ⟨called, c₁, h₁⟩ hcall
  obtain ⟨ls, hreads, -⟩ := sound_call c hcall
  exact .bind (pointsInto_expect.behind hreads) fun _ _ => .ok

/-! ## Blocks -/

/-- The head of a call is shown at the place of its tokens. -/
theorem exists_place_of_writesCall (hg : g.Literal) {ls : List Lexeme} {called : Call}
    (h : g.WritesCall ls called) :
    ∃ own, own <:+: ls ∧ own ≠ [] ∧ called.head.loc = g.place own := by
  cases h with
  | @mk own ls' ls'' _ _ _ hhead _ _ =>
      obtain ⟨hne, hloc⟩ := place_of_writesExpr hg hhead
      exact ⟨own, (List.prefix_append own (ls' ++ ls'')).isInfix, hne, hloc⟩

/-- The head of an opening tag has the place of its tokens. -/
theorem exists_place_of_writesOpening (hg : g.Literal) {kind : Opener} {ls : List Lexeme}
    {head : BlockOpening} (h : g.WritesOpening kind ls head) :
    ∃ own, own <:+: ls ∧ own ≠ [] ∧ head.call.head.loc = g.place own := by
  cases h with
  | @mk opener closer s s' ls ls' _ _ hcall _ _ =>
      obtain ⟨own, hown, hne, hloc⟩ := exists_place_of_writesCall hg hcall
      have hpart : ls <:+: tag kind opener s (ls ++ ls') closer s' :=
        ⟨[⟨.opener kind opener, s⟩], ls' ++ [⟨.closer closer, s'⟩], by simp [tag]⟩
      exact ⟨own, hown.trans hpart, hne, hloc⟩

/-- The name in a closing tag has the place of its tokens. -/
theorem exists_place_of_writesClosing (hg : g.Literal) {ls : List Lexeme} {tail : BlockClosing}
    {name : Expr} (h : g.WritesClosing ls tail) (hname : tail.path = some name) :
    ∃ own, own <:+: ls ∧ own ≠ [] ∧ name.loc = g.place own := by
  cases h with
  | @mk opener closer s s' own _ h =>
      cases hname
      obtain ⟨hne, hloc⟩ := place_of_writesExpr hg h
      have hpart : own <:+: tag .close opener s own closer s' :=
        ⟨[⟨.opener .close opener, s⟩], [⟨.closer closer, s'⟩], by simp [tag]⟩
      exact ⟨own, hpart, hne, hloc⟩

/-- A refused block shows its head, the name in its closing tag or all of it. -/
theorem pointsInto_block (hg : g.Literal) {kind : Opener} {l : Lexeme} {c₁ c₂ c₃ c₄ c₅ : Cursor}
    {ls₁ ls₂ ls₃ ls₄ : List Lexeme} {head : BlockOpening} {program : Program}
    {chains inverted : Bool} {other : Option ElseSection} {tail : Option BlockClosing}
    {e : BuildError} (hfirst : c.Reads [l] c₁) (hhead : c.Reads ls₁ c₂)
    (hls₁ : g.WritesOpening kind ls₁ head) (hbody : c₂.Reads ls₂ c₃) (hother : c₃.Reads ls₃ c₄)
    (hls₃ : g.WritesSection chains ls₃ other) (htail : c₄.Reads ls₄ c₅)
    (hname : ∀ name, tail.bind BlockClosing.path = some name →
      ∃ own, own <:+: ls₄ ∧ own ≠ [] ∧ name.loc = g.place own)
    (h : g.builder.block head program other tail inverted (g.extent l.span.start c₅) = .error e) :
    e.PointsInto g c.rest := by
  have hbefore := hhead.trans hbody
  have hall := hhead.trans (hbody.trans (hother.trans htail))
  refine ⟨fun label hl => ?_, fun hcode => ?_⟩
  · rcases Builder.label_of_block h hl with hloc | ⟨name, hpath, hloc⟩ | hloc
    · obtain ⟨own, hown, hne, hplace⟩ := exists_place_of_writesOpening hg hls₁
      exact ⟨own, hown.trans hhead.isInfix, hne, hloc.trans hplace⟩
    · obtain ⟨own, hown, hne, hplace⟩ := hname name hpath
      have hpart := htail.isInfix.trans (hbefore.trans hother).rest_isInfix
      exact ⟨own, hown.trans hpart, hne, hloc.trans hplace⟩
    · refine ⟨_, hall.isInfix, ?_, ?_⟩
      · exact List.append_ne_nil_of_left_ne_nil (ne_nil_of_writesOpening hls₁) _
      · rw [hloc, extent_of_writesOpening hfirst hls₁ hall, place]
  · obtain ⟨s, closing, rfl, hchained, hnone⟩ := exists_of_block_eq_error h hcode
    have hpart := hother.isInfix.trans hbefore.rest_isInfix
    exact (starred_of_writesSection hls₃ hchained hnone).mono (hpart.map Lexeme.token).subset

/-- A raw block points into its tokens, be it at the head that its closer does not fit. -/
theorem pointsInto_rawBlock (hg : g.Literal) {start : Nat} :
    PointsInto g c.rest c.rest (rawBlock g start c) := by
  refine .commit (.bind (pointsInto_call c) ?_)
  rintro ⟨called, c₁, h₁⟩ hcall
  obtain ⟨ls, hreads, hls⟩ := sound_call c hcall
  refine .bind (pointsInto_expect.behind hreads) ?_
  rintro ⟨u, c₂, h₂⟩ hopen
  obtain ⟨s, hmiddle⟩ := Cursor.reads_of_expect Token.eq_of_isToken? hopen
  obtain ⟨ls', hreads', -⟩ := writesContents_contents (g := g) c₂
  refine .bind (pointsInto_expect.behind (hreads.trans (hmiddle.trans hreads'))) ?_
  rintro ⟨name, c₄, h₄⟩ -
  refine .bind (.lift fun e he => ⟨fun l hl => ?_, fun hcode => ?_⟩) fun _ _ => .ok
  · obtain ⟨own, hown, hne, hloc⟩ := exists_place_of_writesCall hg hls
    exact ⟨own, hown.trans hreads.isInfix, hne, (Builder.label_of_rawBlock he hl).trans hloc⟩
  · exact absurd hcode (code_of_rawBlock he)

/-! ## Statements -/

mutual

/-- **Statements point into their tokens.** -/
theorem pointsInto_statements (hg : g.Literal) (c : Cursor) :
    PointsInto g c.rest c.rest (statements g c) := by
  rw [statements]
  split
  · refine .bind (pointsInto_statement hg c) ?_
    rintro ⟨s, c₁, h₁⟩ hs
    obtain ⟨ls, hreads, -⟩ := sound_statement c hs
    exact .bind ((pointsInto_statements hg c₁).behind hreads) fun _ _ => .ok
  · exact .ok
termination_by 2 * c.rest.length + 1

/-- A statement points into its tokens, and a refused block at its own nodes. -/
theorem pointsInto_statement (hg : g.Literal) (c : Cursor) :
    PointsInto g c.rest c.rest (statement g c) := by
  rw [statement]
  split
  · exact pointsInto_refuse
  · next token span c₁ h₁ hnext =>
      have hfirst := Cursor.reads_of_next? hnext
      cases token with
      | content | comment => exact .ok
      | opener kind opener =>
          cases kind with
          | plain | unescaped =>
              exact .bind (pointsInto_mustache.behind hfirst) fun _ _ => .ok
          | inclusion => exact .bind (pointsInto_inclusion.behind hfirst) fun _ _ => .ok
          | block | inverse =>
              refine .bind (pointsInto_opening.behind hfirst) ?_
              rintro ⟨head, c₂, h₂⟩ hhead
              obtain ⟨ls, hreads, hls⟩ := sound_opening (by decide) hfirst hhead
              refine PointsInto.mono (.commit ?_) (List.infix_refl c.rest) hreads.rest_isInfix
              refine .bind ((pointsInto_statements hg c₂).mono hreads.rest_isInfix
                (List.infix_refl _)) ?_
              rintro ⟨body, c₃, h₃⟩ hbody
              have hlt : c₃.rest.length < c₂.rest.length + 1 := h₃
              obtain ⟨ls₂, hreads₂, -⟩ := sound_statements c₂ hbody
              refine .bind ((pointsInto_section? hg c₃).mono (hreads.trans hreads₂).rest_isInfix
                hreads₂.rest_isInfix) ?_
              rintro ⟨other, c₄, h₄⟩ hother
              obtain ⟨ls₃, hreads₃, hls₃⟩ := sound_section? c₃ hother
              have hinner := hreads₂.trans hreads₃
              refine .bind (pointsInto_closing.mono (hreads.trans hinner).rest_isInfix
                hinner.rest_isInfix) ?_
              rintro ⟨tail, c₅, h₅⟩ htail
              obtain ⟨ls₄, hreads₄, hls₄⟩ := sound_closing htail
              refine .bind (.lift fun e he => ?_) fun _ _ => .ok
              refine pointsInto_block hg hfirst hreads hls hreads₂ hreads₃ hls₃ hreads₄ ?_ he
              exact fun name hname => exists_place_of_writesClosing hg hls₄ hname
          | inclusionBlock =>
              refine .bind (pointsInto_opening.behind hfirst) ?_
              rintro ⟨head, c₂, h₂⟩ hhead
              obtain ⟨ls, hreads, hls⟩ := sound_opening (by decide) hfirst hhead
              refine PointsInto.mono (.commit ?_) (List.infix_refl c.rest) hreads.rest_isInfix
              refine .bind ((pointsInto_statements hg c₂).mono hreads.rest_isInfix
                (List.infix_refl _)) ?_
              rintro ⟨body, c₃, h₃⟩ hbody
              obtain ⟨ls₂, hreads₂, -⟩ := sound_statements c₂ hbody
              refine .bind (pointsInto_closing.mono (hreads.trans hreads₂).rest_isInfix
                hreads₂.rest_isInfix) ?_
              rintro ⟨tail, c₄, h₄⟩ -
              refine .bind (.lift fun e he => ⟨fun l hl => ?_, fun hcode => ?_⟩) fun _ _ => .ok
              · obtain ⟨own, hown, hne, hloc⟩ := exists_place_of_writesOpening hg hls
                have hlabel := Builder.label_of_inclusionBlock he hl
                exact ⟨own, hown.trans hreads.isInfix, hne, hlabel.trans hloc⟩
              · exact absurd hcode (code_of_inclusionBlock he)
          | close | chain => exact pointsInto_refuse
      | rawOpener => exact .bind ((pointsInto_rawBlock hg).behind hfirst) fun _ _ => .ok
      | _ => exact pointsInto_refuse
termination_by 2 * c.rest.length

/-- An else section points into its tokens. No closing tag stands behind a link, so no
name of one is shown. -/
theorem pointsInto_section? (hg : g.Literal) {chains : Bool} (c : Cursor) :
    PointsInto g c.rest c.rest (section? g chains c) := by
  rw [section?]
  split
  · next text span c₁ h₁ hnext =>
      have hfirst := Cursor.reads_of_next? hnext
      exact .bind ((pointsInto_statements hg c₁).behind hfirst) fun _ _ => .ok
  · next opener span c₁ h₁ hnext =>
      split
      · next hchains =>
          have hfirst := Cursor.reads_of_next? hnext
          refine .bind (pointsInto_opening.behind hfirst) ?_
          rintro ⟨head, c₂, h₂⟩ hhead
          obtain ⟨ls, hreads, hls⟩ := sound_opening (by decide) hfirst hhead
          refine PointsInto.mono (.commit ?_) (List.infix_refl c.rest) hreads.rest_isInfix
          refine .bind ((pointsInto_statements hg c₂).mono hreads.rest_isInfix
            (List.infix_refl _)) ?_
          rintro ⟨body, c₃, h₃⟩ hbody
          have hlt : c₃.rest.length < c₂.rest.length + 1 := h₃
          obtain ⟨ls₂, hreads₂, -⟩ := sound_statements c₂ hbody
          refine .bind ((pointsInto_section? hg c₃).mono (hreads.trans hreads₂).rest_isInfix
            hreads₂.rest_isInfix) ?_
          rintro ⟨other, c₄, h₄⟩ hother
          obtain ⟨ls₃, hreads₃, hls₃⟩ := sound_section? c₃ hother
          refine .bind (.lift fun e he => ?_) fun _ _ => .ok
          refine pointsInto_block hg hfirst hreads hls hreads₂ hreads₃ hls₃ (.refl c₄) ?_ he
          intro name hname
          cases other <;> cases hname
      · exact .ok
  · exact .ok
termination_by 2 * c.rest.length

end

/-- What the grammar refuses about a template it shows at tokens of the template. -/
theorem pointsInto_program (hg : g.Literal) (ls : List Lexeme) :
    PointsInto g ls ls (g.program ls) := by
  refine .bind (pointsInto_statements hg ⟨⟨0, 0⟩, ls⟩) ?_
  rintro ⟨body, c, hc⟩ hbody
  obtain ⟨own, hreads, -⟩ := sound_statements _ hbody
  dsimp only
  split
  · exact .ok
  · exact pointsInto_refuse.commit.behind hreads

end Grammar
end Stache
