import Stache.Proofs.Grammar.Spelled

/-!
# Opening tags of raw blocks

A `}}}}` that the grammar reads ends the opening tag of a raw block.  This holds of the tokens of
a template, and of the tokens of one that is not finished: where the grammar asks for more than
there is, it has read all of them (`rawOpened_of_program`).

`RawOpened` says this of some tokens and `AsksOn` of a production, which may end with the tokens.
The lemmas go through the productions one by one.  Only that of raw blocks reads a `}}}}`.
-/

namespace Stache

theorem Token.ne_rawCloser_of_isInner {t : Token} (h : t.isInner = true) : t ≠ .rawCloser := by
  rintro rfl
  cases h

namespace Grammar

variable {g : Grammar} {ls ls' own : List Lexeme}

/-! ## Tokens -/

/-- Every `}}}}` among the tokens ends an opening tag, which has a call in it. -/
inductive RawOpened (g : Grammar) : List Lexeme → Prop where
  | nil : RawOpened g []
  | cons {l : Lexeme} {ls : List Lexeme} (hl : l.token ≠ .rawCloser) (h : RawOpened g ls) :
      RawOpened g (l :: ls)
  | tag {s s' : Span} {called ls : List Lexeme} {call : Call} (hcall : g.WritesCall called call)
      (h : RawOpened g ls) :
      RawOpened g (⟨.rawOpener, s⟩ :: (called ++ ⟨.rawCloser, s'⟩ :: ls))

/-- What holds of two lists holds of both together. -/
theorem RawOpened.append (h : RawOpened g ls) (h' : RawOpened g ls') : RawOpened g (ls ++ ls') := by
  induction h with
  | nil => exact h'
  | cons hl _ ih => exact .cons hl ih
  | tag hcall _ ih =>
      rw [List.cons_append, List.append_assoc]
      exact .tag hcall ih

/-- The inside of a tag has no `}}}}`. -/
theorem RawOpened.of_inner (h : Inner ls) : RawOpened g ls := by
  induction ls with
  | nil => exact .nil
  | cons l ls ih =>
      obtain ⟨hl, hls⟩ := List.forall_mem_cons.mp h
      exact .cons (Token.ne_rawCloser_of_isInner hl) (ih hls)

/-- What stands in front of a `}}}}`. -/
theorem RawOpened.exists_of_rawCloser (h : RawOpened g ls) {front back : List Lexeme} {x : Lexeme}
    (hls : ls = front ++ x :: back) (hx : x.token = .rawCloser) :
    ∃ before s called call, front = before ++ ⟨.rawOpener, s⟩ :: called ∧
      g.WritesCall called call := by
  induction h generalizing front with
  | nil => cases front <;> cases hls
  | cons hl _ ih =>
      cases front with
      | nil =>
          obtain ⟨rfl, -⟩ := List.cons.inj hls
          exact absurd hx hl
      | cons y front =>
          obtain ⟨rfl, hrest⟩ := List.cons.inj hls
          obtain ⟨before, s, called, call, rfl, hcall⟩ := ih hrest
          exact ⟨_ :: before, s, called, call, rfl, hcall⟩
  | @tag s s' called ls call hcall _ ih =>
      cases front with
      | nil =>
          obtain ⟨rfl, -⟩ := List.cons.inj hls
          cases hx
      | cons y front =>
          obtain ⟨rfl, hrest⟩ := List.cons.inj hls
          rcases List.append_eq_append_iff.mp hrest with ⟨more, rfl, hmore⟩ | ⟨more, hcalled, hmore⟩
          · cases more with
            | nil => exact ⟨[], s, called, call, by rw [List.append_nil]; rfl, hcall⟩
            | cons z more =>
                obtain ⟨-, hmore⟩ := List.cons.inj hmore
                obtain ⟨before, s'', called', call', rfl, hcall'⟩ := ih hmore
                exact ⟨⟨.rawOpener, s⟩ :: (called ++ z :: before), s'', called', call',
                  by simp, hcall'⟩
          · cases more with
            | nil =>
                rw [List.append_nil] at hcalled
                exact ⟨[], s, called, call, by rw [hcalled]; rfl, hcall⟩
            | cons z more =>
                obtain ⟨rfl, -⟩ := List.cons.inj hmore
                have hinner := inner_of_writesCall hcall x (hcalled ▸ by simp)
                exact absurd hx (Token.ne_rawCloser_of_isInner hinner)

/-! ## What is written -/

/-- In a tag that ends with double braces there is no `}}}}`. -/
theorem rawOpened_tag {kind : Opener} {opener closer : Text} {s s' : Span} (h : Inner ls) :
    RawOpened g (tag kind opener s ls closer s') :=
  .cons nofun ((RawOpened.of_inner h).append (.cons nofun .nil))

/-- An opening tag ends with double braces. -/
theorem rawOpened_of_writesOpening {kind : Opener} {head : BlockOpening}
    (h : g.WritesOpening kind ls head) : RawOpened g ls := by
  cases h with
  | mk hcall hnames _ =>
      exact rawOpened_tag ((inner_of_writesCall hcall).append (inner_of_writesNames hnames))

/-- A closing tag ends with double braces. -/
theorem rawOpened_of_writesClosing {tail : BlockClosing} (h : g.WritesClosing ls tail) :
    RawOpened g ls := by
  cases h with
  | mk h => exact rawOpened_tag (inner_of_writesExpr h)

theorem rawOpened_of_writesContents {body : List Statement} (h : g.WritesContents ls body) :
    RawOpened g ls := by
  induction h with
  | nil => exact .nil
  | cons _ ih => exact .cons nofun ih

mutual

/-- In statements, every `}}}}` ends the opening tag of a raw block. -/
theorem rawOpened_of_writesStatements : ∀ {ls : List Lexeme} {body : List Statement},
    g.WritesStatements ls body → RawOpened g ls
  | _, _, .nil => .nil
  | _, _, .cons hs h => (rawOpened_of_writesStatement hs).append (rawOpened_of_writesStatements h)

/-- In a statement, every `}}}}` ends the opening tag of a raw block. -/
theorem rawOpened_of_writesStatement : ∀ {ls : List Lexeme} {s : Statement},
    g.WritesStatement ls s → RawOpened g ls
  | _, _, .content | _, _, .comment => .cons nofun .nil
  | _, _, .plain h | _, _, .inclusion h => rawOpened_tag (inner_of_writesCall h)
  | _, _, .unescaped h =>
      .cons nofun ((RawOpened.of_inner (inner_of_writesCall h)).append (.cons nofun .nil))
  | _, _, .rawBlock hcall hbody _ =>
      .tag hcall ((rawOpened_of_writesContents hbody).append (.cons nofun .nil))
  | _, _, .block hhead hbody hother htail _ =>
      (rawOpened_of_writesOpening hhead).append ((rawOpened_of_writesStatements hbody).append
        ((rawOpened_of_writesSection hother).append (rawOpened_of_writesClosing htail)))
  | _, _, .inclusionBlock hhead hbody htail _ =>
      (rawOpened_of_writesOpening hhead).append ((rawOpened_of_writesStatements hbody).append
        (rawOpened_of_writesClosing htail))

/-- In an else section, every `}}}}` ends the opening tag of a raw block. -/
theorem rawOpened_of_writesSection : ∀ {chains : Bool} {ls : List Lexeme}
    {other : Option ElseSection}, g.WritesSection chains ls other → RawOpened g ls
  | _, _, _, .none => .nil
  | _, _, _, .plain h => .cons nofun (rawOpened_of_writesStatements h)
  | _, _, _, .link hhead hbody hother _ =>
      (rawOpened_of_writesOpening hhead).append ((rawOpened_of_writesStatements hbody).append
        (rawOpened_of_writesSection hother))

end

/-! ## Productions that ask for more -/

/-- If the production asks for a token where none is left, every `}}}}` in front of this place
ends an opening tag. -/
def AsksOn (g : Grammar) (c : Cursor) {α : Type} (x : Except Refusal α) : Prop :=
  ∀ expected since, x = .error (.mismatch expected since none) → RawOpened g c.rest

section AsksOn

variable {α β : Type} {c c' : Cursor} {x : Except Refusal α}

theorem AsksOn.ok {a : α} : AsksOn g c (.ok a : Except Refusal α) := nofun

/-- What is asked for behind some tokens is asked for in front of them. -/
theorem AsksOn.behind (h : AsksOn g c' x) (hreads : c.Reads own c') (hown : RawOpened g own) :
    AsksOn g c x := by
  intro expected since hx
  rw [hreads.rest_eq]
  exact hown.append (h expected since hx)

/-- A production asks for more in its first part or, behind it, in the second. -/
theorem AsksOn.bind {f : α → Except Refusal β} (hx : AsksOn g c x)
    (hf : ∀ a, x = .ok a → AsksOn g c (f a)) : AsksOn g c (x >>= f) := by
  intro expected since h
  cases x with
  | ok a => exact hf a rfl expected since h
  | error r =>
      cases h
      exact hx expected since rfl

/-- A commitment does not change what is asked for. -/
theorem AsksOn.commit (h : AsksOn g c x) : AsksOn g c (c'.commit x) := by
  intro expected since hx
  unfold Cursor.commit at hx
  split at hx
  · cases hx
    exact h _ _ rfl
  · exact h _ _ hx

/-- The builder asks for no token. -/
theorem AsksOn.lift {r : Except BuildError α} : AsksOn g c (Refusal.lift r) := by
  intro expected since h
  cases r <;> cases h

/-- What is refused at the end is asked for there. -/
theorem asksOn_refuse {expected : Expected} :
    AsksOn g c (c.refuse expected : Except Refusal α) := by
  obtain ⟨last, rest⟩ := c
  intro expected since h
  cases rest with
  | nil => exact .nil
  | cons => cases h

/-- A token that is missed at the end is asked for there. -/
theorem asksOn_expect {expected : Expected} {pick : Token → Option α} :
    AsksOn g c (c.expect expected pick) := by
  unfold Cursor.expect
  split
  · exact asksOn_refuse
  · split
    · exact .ok
    · exact asksOn_refuse

end AsksOn

/-! ## Paths -/

variable {c c' : Cursor}

/-- Segments may end inside a tag. -/
theorem asksOn_moreSegments (c : Cursor) : AsksOn g c (moreSegments c) := by
  rw [moreSegments]
  split
  · next kind s c₁ h₁ hnext =>
      have hfirst := Cursor.reads_of_next? hnext
      have hinner : Inner [⟨.separator kind, s⟩] := .cons rfl .nil
      refine .bind (asksOn_expect.commit.behind hfirst (.of_inner hinner)) ?_
      rintro ⟨name, c₂, h₂⟩ hident
      obtain ⟨s', hreads⟩ :=
        Cursor.reads_of_expect Token.eq_of_ident? (Cursor.eq_ok_of_commit hident)
      refine .bind ((asksOn_moreSegments c₂).behind (hfirst.cons hreads) ?_) fun _ _ => .ok
      exact .of_inner (.cons rfl (.cons rfl .nil))
  · exact .ok
termination_by c.rest.length

theorem asksOn_segments : AsksOn g c (segments c) := by
  refine .bind asksOn_expect ?_
  rintro ⟨name, c₁, h₁⟩ hident
  obtain ⟨s, hreads⟩ := Cursor.reads_of_expect Token.eq_of_ident? hident
  refine .bind ((asksOn_moreSegments c₁).behind hreads ?_) fun _ _ => .ok
  exact .of_inner (.cons rfl .nil)

theorem asksOn_afterSub {start : Nat} {sub : SubExpr} : AsksOn g c (afterSub g start sub c) := by
  rw [afterSub]
  split
  · next kind s c₁ h₁ hnext =>
      have hfirst := Cursor.reads_of_next? hnext
      refine .bind (asksOn_segments.behind hfirst (.of_inner (.cons rfl .nil))) ?_
      exact fun _ _ => .bind .lift fun _ _ => .ok
  · exact .ok

/-! ## Expressions -/

mutual

/-- An expression may end inside a tag. -/
theorem asksOn_expr (c : Cursor) : AsksOn g c (expr g c) := by
  rw [expr]
  split
  · exact asksOn_refuse
  · next token span c₁ h₁ hnext =>
      have hfirst := Cursor.reads_of_next? hnext
      cases token with
      | ident name =>
          refine .bind ((asksOn_moreSegments c₁).behind hfirst (.of_inner (.cons rfl .nil))) ?_
          exact fun _ _ => .bind .lift fun _ _ => .ok
      | data =>
          refine .bind (asksOn_segments.commit.behind hfirst (.of_inner (.cons rfl .nil))) ?_
          exact fun _ _ => .bind .lift fun _ _ => .ok
      | parenOpen =>
          refine AsksOn.behind (.commit ?_) hfirst (.of_inner (.cons rfl .nil))
          split
          · refine .bind (asksOn_pairs c₁) ?_
            rintro ⟨list, c₂, h₂⟩ hlist
            obtain ⟨ls, hreads, hls⟩ := sound_pairs c₁ hlist
            refine .bind (asksOn_expect.behind hreads ?_) fun _ _ => .ok
            exact .of_inner (inner_of_writesPairs hls)
          · refine .bind (asksOn_call c₁) ?_
            rintro ⟨called, c₂, h₂⟩ hcall
            obtain ⟨ls, hreads, hls⟩ := sound_call c₁ hcall
            have hinner := inner_of_writesCall hls
            refine .bind (asksOn_expect.behind hreads (.of_inner hinner)) ?_
            rintro ⟨u, c₃, h₃⟩ hclose
            obtain ⟨s, hlast⟩ := Cursor.reads_of_expect Token.eq_of_isToken? hclose
            refine .bind (asksOn_afterSub.behind (hreads.trans hlast) ?_) fun _ _ => .ok
            exact .of_inner (hinner.append (.cons rfl .nil))
      | arrayOpen =>
          refine AsksOn.behind (.commit (.bind (asksOn_items c₁) ?_)) hfirst
            (.of_inner (.cons rfl .nil))
          rintro ⟨list, c₂, h₂⟩ hlist
          obtain ⟨ls, hreads, hls⟩ := sound_items c₁ hlist
          refine .bind (asksOn_expect.behind hreads ?_) fun _ _ => .ok
          exact .of_inner (inner_of_writesExprs hls)
      | string | number | boolean | undefined | null => exact .ok
      | _ => exact asksOn_refuse
termination_by 2 * c.rest.length

/-- A call may end inside a tag. -/
theorem asksOn_call (c : Cursor) : AsksOn g c (call g c) := by
  rw [call]
  refine .bind (asksOn_expr c) ?_
  rintro ⟨head, c₁, h₁⟩ hhead
  obtain ⟨ls, hreads, hls⟩ := sound_expr c hhead
  have hinner := inner_of_writesExpr hls
  refine .bind ((asksOn_params c₁).behind hreads (.of_inner hinner)) ?_
  rintro ⟨list, c₂, h₂⟩ hlist
  obtain ⟨ls', hreads', hls'⟩ := sound_params c₁ hlist
  refine .bind ((asksOn_pairs c₂).behind (hreads.trans hreads') ?_) fun _ _ => .ok
  exact .of_inner (hinner.append (inner_of_writesExprs hls'))
termination_by 2 * c.rest.length + 1

theorem asksOn_params (c : Cursor) : AsksOn g c (params g c) := by
  rw [params]
  split
  · refine .bind (asksOn_expr c) ?_
    rintro ⟨e, c₁, h₁⟩ he
    obtain ⟨ls, hreads, hls⟩ := sound_expr c he
    refine .bind ((asksOn_params c₁).behind hreads ?_) fun _ _ => .ok
    exact .of_inner (inner_of_writesExpr hls)
  · exact .ok
termination_by 2 * c.rest.length + 1

theorem asksOn_items (c : Cursor) : AsksOn g c (items g c) := by
  rw [items]
  split
  · refine .bind (asksOn_expr c) ?_
    rintro ⟨e, c₁, h₁⟩ he
    obtain ⟨ls, hreads, hls⟩ := sound_expr c he
    refine .bind ((asksOn_items c₁).behind hreads ?_) fun _ _ => .ok
    exact .of_inner (inner_of_writesExpr hls)
  · exact .ok
termination_by 2 * c.rest.length + 1

theorem asksOn_pairs (c : Cursor) : AsksOn g c (pairs g c) := by
  rw [pairs]
  split
  · next key span c₁ h₁ hnext =>
      split
      · next s c₂ h₂ hnext' =>
          have hfirst := (Cursor.reads_of_next? hnext).cons (Cursor.reads_of_next? hnext')
          have hinner : Inner [⟨.ident key, span⟩, ⟨.equals, s⟩] := .cons rfl (.cons rfl .nil)
          refine .bind ((asksOn_expr c₂).commit.behind hfirst (.of_inner hinner)) ?_
          rintro ⟨value, c₃, h₃⟩ hvalue
          obtain ⟨ls, hreads, hls⟩ := sound_expr c₂ (Cursor.eq_ok_of_commit hvalue)
          refine .bind ((asksOn_pairs c₃).behind (hfirst.trans hreads) ?_) fun _ _ => .ok
          exact .of_inner (hinner.append (inner_of_writesExpr hls))
      · exact .ok
  · exact .ok
termination_by 2 * c.rest.length + 1

end

/-! ## Tags -/

theorem asksOn_blockParams : AsksOn g c (blockParams c) := by
  rw [blockParams]
  split
  · next span c₁ h₁ hnext =>
      have hfirst := Cursor.reads_of_next? hnext
      refine AsksOn.behind (.commit (.bind asksOn_expect ?_)) hfirst (.of_inner (.cons rfl .nil))
      rintro ⟨first, c₂, h₂⟩ hident
      obtain ⟨s, hreads⟩ := Cursor.reads_of_expect Token.eq_of_ident? hident
      obtain ⟨ls, hrest, hls⟩ := writesIdents_idents c₂
      refine .bind (asksOn_expect.behind (hreads.cons hrest) ?_) fun _ _ => .ok
      exact .of_inner (.cons rfl (inner_of_writesIdents hls))
  · exact .ok

/-- An opening tag may lack its end. -/
theorem asksOn_opening {named : Bool} {opener : Text} :
    AsksOn g c (opening g named opener c) := by
  refine .commit (.bind (asksOn_call c) ?_)
  rintro ⟨called, c₁, h₁⟩ hcall
  obtain ⟨ls, hreads, hls⟩ := sound_call c hcall
  have hinner := inner_of_writesCall hls
  dsimp only
  split
  · refine .bind (asksOn_blockParams.behind hreads (.of_inner hinner)) ?_
    rintro ⟨names, c₂, h₂⟩ hnames
    obtain ⟨ls', hreads', hls'⟩ := sound_blockParams hnames
    refine .bind (asksOn_expect.behind (hreads.trans hreads') ?_) fun _ _ => .ok
    exact .of_inner (hinner.append (inner_of_writesNames hls'))
  · exact .bind (asksOn_expect.behind hreads (.of_inner hinner)) fun _ _ => .ok

/-- A closing tag may lack its end. -/
theorem asksOn_closing : AsksOn g c (closing g c) := by
  refine .bind asksOn_expect ?_
  rintro ⟨opener, c₁, h₁⟩ hopener
  obtain ⟨s, hfirst⟩ := Cursor.reads_of_expect Token.eq_of_blockClose? hopener
  refine AsksOn.behind (.commit (.bind (asksOn_expr c₁) ?_)) hfirst (.cons nofun .nil)
  rintro ⟨path, c₂, h₂⟩ hpath
  obtain ⟨ls, hreads, hls⟩ := sound_expr c₁ hpath
  refine .bind (asksOn_expect.behind hreads ?_) fun _ _ => .ok
  exact .of_inner (inner_of_writesExpr hls)

/-- A mustache may lack its end. -/
theorem asksOn_mustache {start : Nat} {unescaped : Bool} {opener : Text} :
    AsksOn g c (mustache g start unescaped opener c) := by
  refine .commit (.bind (asksOn_call c) ?_)
  rintro ⟨called, c₁, h₁⟩ hcall
  obtain ⟨ls, hreads, hls⟩ := sound_call c hcall
  have hinner := inner_of_writesCall hls
  dsimp only
  split
  · exact .bind (asksOn_expect.behind hreads (.of_inner hinner)) fun _ _ => .ok
  · exact .bind (asksOn_expect.behind hreads (.of_inner hinner)) fun _ _ => .ok

theorem asksOn_inclusion {start : Nat} {opener : Text} :
    AsksOn g c (inclusion g start opener c) := by
  refine .commit (.bind (asksOn_call c) ?_)
  rintro ⟨called, c₁, h₁⟩ hcall
  obtain ⟨ls, hreads, hls⟩ := sound_call c hcall
  refine .bind (asksOn_expect.behind hreads ?_) fun _ _ => .ok
  exact .of_inner (inner_of_writesCall hls)

/-- The `}}}}` of a raw block stands behind its opener and its call. -/
theorem asksOn_rawBlock {s : Span} {start : Nat} (hfirst : c.Reads [⟨.rawOpener, s⟩] c') :
    AsksOn g c (rawBlock g start c') := by
  have hopener : RawOpened g [⟨.rawOpener, s⟩] := .cons nofun .nil
  refine .commit (.bind ((asksOn_call c').behind hfirst hopener) ?_)
  rintro ⟨called, c₁, h₁⟩ hcall
  obtain ⟨ls, hreads, hls⟩ := sound_call c' hcall
  refine .bind (asksOn_expect.behind (hfirst.trans hreads)
    (hopener.append (.of_inner (inner_of_writesCall hls)))) ?_
  rintro ⟨u, c₂, h₂⟩ hclose
  obtain ⟨s', hclose⟩ := Cursor.reads_of_expect Token.eq_of_isToken? hclose
  obtain ⟨ls', hreads', hls'⟩ := writesContents_contents (g := g) c₂
  have hall := hfirst.cons (hreads.trans (hclose.cons hreads'))
  refine .bind (asksOn_expect.behind hall (.tag hls (rawOpened_of_writesContents hls'))) ?_
  exact fun _ _ => .bind .lift fun _ _ => .ok

/-! ## Statements -/

mutual

/-- **Where statements ask for more, every `}}}}` in front ends an opening tag.** -/
theorem asksOn_statements (c : Cursor) : AsksOn g c (statements g c) := by
  rw [statements]
  split
  · refine .bind (asksOn_statement c) ?_
    rintro ⟨s, c₁, h₁⟩ hs
    obtain ⟨ls, hreads, hls⟩ := sound_statement c hs
    refine .bind ((asksOn_statements c₁).behind hreads ?_) fun _ _ => .ok
    exact rawOpened_of_writesStatement hls
  · exact .ok
termination_by 2 * c.rest.length + 1

/-- Where a statement asks for more, the raw block that it may be has its `}}}}`. -/
theorem asksOn_statement (c : Cursor) : AsksOn g c (statement g c) := by
  rw [statement]
  split
  · exact asksOn_refuse
  · next token span c₁ h₁ hnext =>
      have hfirst := Cursor.reads_of_next? hnext
      cases token with
      | content | comment => exact .ok
      | opener kind opener =>
          have hopener : RawOpened g [⟨.opener kind opener, span⟩] := .cons nofun .nil
          cases kind with
          | plain | unescaped =>
              exact .bind (asksOn_mustache.behind hfirst hopener) fun _ _ => .ok
          | inclusion => exact .bind (asksOn_inclusion.behind hfirst hopener) fun _ _ => .ok
          | block | inverse =>
              refine .bind (asksOn_opening.behind hfirst hopener) ?_
              rintro ⟨head, c₂, h₂⟩ hhead
              obtain ⟨ls, hreads, hls⟩ := sound_opening (by decide) hfirst hhead
              refine AsksOn.behind (.commit ?_) hreads (rawOpened_of_writesOpening hls)
              refine .bind (asksOn_statements c₂) ?_
              rintro ⟨body, c₃, h₃⟩ hbody
              have hlt : c₃.rest.length < c₂.rest.length + 1 := h₃
              obtain ⟨ls₂, hreads₂, hls₂⟩ := sound_statements c₂ hbody
              have hbody := rawOpened_of_writesStatements hls₂
              refine .bind ((asksOn_section? c₃).behind hreads₂ hbody) ?_
              rintro ⟨other, c₄, h₄⟩ hother
              obtain ⟨ls₃, hreads₃, hls₃⟩ := sound_section? c₃ hother
              refine .bind (asksOn_closing.behind (hreads₂.trans hreads₃)
                (hbody.append (rawOpened_of_writesSection hls₃))) ?_
              exact fun _ _ => .bind .lift fun _ _ => .ok
          | inclusionBlock =>
              refine .bind (asksOn_opening.behind hfirst hopener) ?_
              rintro ⟨head, c₂, h₂⟩ hhead
              obtain ⟨ls, hreads, hls⟩ := sound_opening (by decide) hfirst hhead
              refine AsksOn.behind (.commit ?_) hreads (rawOpened_of_writesOpening hls)
              refine .bind (asksOn_statements c₂) ?_
              rintro ⟨body, c₃, h₃⟩ hbody
              obtain ⟨ls₂, hreads₂, hls₂⟩ := sound_statements c₂ hbody
              refine .bind (asksOn_closing.behind hreads₂ (rawOpened_of_writesStatements hls₂)) ?_
              exact fun _ _ => .bind .lift fun _ _ => .ok
          | close | chain => exact asksOn_refuse
      | rawOpener => exact .bind (asksOn_rawBlock hfirst) fun _ _ => .ok
      | _ => exact asksOn_refuse
termination_by 2 * c.rest.length

/-- Where an else section asks for more, every `}}}}` in front ends an opening tag. -/
theorem asksOn_section? {chains : Bool} (c : Cursor) : AsksOn g c (section? g chains c) := by
  rw [section?]
  split
  · next text span c₁ h₁ hnext =>
      have hfirst := Cursor.reads_of_next? hnext
      exact .bind ((asksOn_statements c₁).behind hfirst (.cons nofun .nil)) fun _ _ => .ok
  · next opener span c₁ h₁ hnext =>
      split
      · have hfirst := Cursor.reads_of_next? hnext
        refine .bind (asksOn_opening.behind hfirst (.cons nofun .nil)) ?_
        rintro ⟨head, c₂, h₂⟩ hhead
        obtain ⟨ls, hreads, hls⟩ := sound_opening (by decide) hfirst hhead
        refine AsksOn.behind (.commit ?_) hreads (rawOpened_of_writesOpening hls)
        refine .bind (asksOn_statements c₂) ?_
        rintro ⟨body, c₃, h₃⟩ hbody
        have hlt : c₃.rest.length < c₂.rest.length + 1 := h₃
        obtain ⟨ls₂, hreads₂, hls₂⟩ := sound_statements c₂ hbody
        refine .bind ((asksOn_section? c₃).behind hreads₂ (rawOpened_of_writesStatements hls₂)) ?_
        exact fun _ _ => .bind .lift fun _ _ => .ok
      · exact .ok
  · exact .ok
termination_by 2 * c.rest.length

end

/-- **Every `}}}}` of a template ends an opening tag**, and so does every one in front of the place
where a template breaks off. -/
theorem rawOpened_of_program (ls : List Lexeme) :
    (∀ p, g.program ls = .ok p → RawOpened g ls) ∧ AsksOn g ⟨⟨0, 0⟩, ls⟩ (g.program ls) := by
  refine ⟨fun p h => ?_, .bind (asksOn_statements _) ?_⟩
  · cases writesProgram_of_program h with
    | mk hbody => exact rawOpened_of_writesStatements hbody
  · rintro ⟨body, c, hc⟩ hbody
    obtain ⟨own, hreads, hls⟩ := sound_statements _ hbody
    dsimp only
    split
    · exact .ok
    · exact asksOn_refuse.commit.behind hreads (rawOpened_of_writesStatements hls)

end Grammar
end Stache
