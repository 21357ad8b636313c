import Stache.Proofs.Grammar.Complete
import Stache.Proofs.Grammar.Exact

/-!
# Where the parts of a block end

Tokens that are known to be the opening tag, the body, the else section and the closing tag of a
block one after the other are the same parts in whatever these tokens write
(`exists_of_block_parts`).  A derivation is free to split its tokens anywhere.  But the production
returns what is written and stops behind it, and in front of a phrase it stops behind the phrase,
so there is one place only where a part can end.
-/

namespace Stache
namespace Grammar

variable {g : Grammar} {ls ls' ls'' own rest rest' : List Lexeme}

/-! ## One place to end -/

theorem length_tokensOf (ls : List Lexeme) : (tokensOf ls).length = ls.length := List.length_map _

theorem reads_append : Cursor.Reads ⟨⟨0, 0⟩, ls ++ rest⟩ ls ⟨endOf ⟨0, 0⟩ ls, rest⟩ := ⟨rfl, rfl⟩

/-- What is returned in front of a phrase leaves what is behind the phrase. -/
theorem length_of_meets {α : Type} {n : Nat} {a : α} {c : Cursor} {star : Prop}
    {x : Except Refusal (Parsed α n)} (hx : Returns x a c) (hm : Meets star (tokensOf rest) x) :
    c.rest.length = rest.length := by
  obtain ⟨hlt, rfl⟩ := hx
  rcases hm with ⟨p, hp, hstop⟩ | ⟨e, he, -⟩
  · obtain rfl := Except.ok.inj hp
    rw [← length_tokensOf, ← length_tokensOf rest]
    exact congrArg List.length hstop
  · cases he

/-- A production that returns what `ls` writes and one that meets `ls'` stop in one place. -/
theorem split_of_exact {α : Type} {a : α} {size : Cursor → Nat} {star : Prop}
    {production : ∀ c : Cursor, Except Refusal (Parsed α (size c))} {Ends : List Token → Prop}
    (hexact : Exact production Ends ls a)
    (hmeets : ∀ c, Cursor.tokens c = tokensOf ls' ++ tokensOf rest' →
      Meets star (tokensOf rest') (production c))
    (h : ls ++ rest = ls' ++ rest') (hrest : Ends (tokensOf rest)) : ls = ls' ∧ rest = rest' := by
  have htokens : Cursor.tokens ⟨⟨0, 0⟩, ls ++ rest⟩ = tokensOf ls' ++ tokensOf rest' := by
    rw [Cursor.tokens, h, tokensOf_append]
  exact List.append_inj' h (length_of_meets (hexact reads_append hrest) (hmeets _ htokens))

theorem split_expr {e : Expr} (hw : g.WritesExpr ls e) (hd : Derives .expr (tokensOf ls'))
    (h : ls ++ rest = ls' ++ rest') (hrest : Fronts Token.endsExpr (tokensOf rest))
    (hrest' : Fronts Token.endsExpr (tokensOf rest')) : ls = ls' ∧ rest = rest' :=
  split_of_exact (exact_of_writesExpr hw) (fun _ hc => complete_of_derives hd hc hrest') h hrest

theorem split_call {called : Call} (hw : g.WritesCall ls called)
    (hd : Derives .call (tokensOf ls')) (h : ls ++ rest = ls' ++ rest')
    (hrest : Fronts Token.endsCall (tokensOf rest))
    (hrest' : Fronts Token.endsCall (tokensOf rest')) : ls = ls' ∧ rest = rest' :=
  split_of_exact (exact_of_writesCall hw) (fun _ hc => complete_of_derives hd hc hrest') h hrest

theorem split_statements {body : List Statement} (hw : g.WritesStatements ls body)
    (hd : Derives .statements (tokensOf ls')) (h : ls ++ rest = ls' ++ rest')
    (hrest : Fronts Token.endsBody (tokensOf rest))
    (hrest' : Fronts Token.endsBody (tokensOf rest')) : ls = ls' ∧ rest = rest' :=
  split_of_exact (exact_of_writesStatements hw) (fun _ hc => complete_of_derives hd hc hrest') h
    hrest

theorem split_statement {s : Statement} (hw : g.WritesStatement ls s)
    (hd : Derives .statement (tokensOf ls')) (h : ls ++ rest = ls' ++ rest') :
    ls = ls' ∧ rest = rest' :=
  split_of_exact (exact_of_writesStatement hw) (fun _ hc => complete_of_derives hd hc) h trivial

theorem split_section {chains : Bool} {other : Option ElseSection}
    (hw : g.WritesSection chains ls other) (hd : Derives (.elseSection chains) (tokensOf ls'))
    (h : ls ++ rest = ls' ++ rest') (hrest : StartsClose (tokensOf rest))
    (hrest' : StartsClose (tokensOf rest')) : ls = ls' ∧ rest = rest' := by
  have hmeets : ∀ c, Cursor.tokens c = tokensOf ls' ++ tokensOf rest' →
      Meets (Starred (tokensOf ls')) (tokensOf rest') (section? g chains c) := by
    intro c hc
    obtain ⟨opener, more, hmore⟩ := hrest'
    rw [hmore] at hc ⊢
    exact complete_of_derives hd hc
  exact split_of_exact (exact_of_writesSection hw) hmeets h hrest

theorem split_opening {kind : Opener} {head : BlockOpening} (hw : g.WritesOpening kind ls head)
    (hd : Derives (.opening kind) (tokensOf ls')) (h : ls ++ rest = ls' ++ rest')
    (hkind : kind ≠ .inclusionBlock) : ls = ls' ∧ rest = rest' := by
  obtain ⟨opener, ts, hts, hmeets⟩ := complete_of_derives (g := g) hd
  obtain ⟨span, c, hopen, hopening⟩ :=
    exact_opening true (iff_of_false nofun hkind) hw (@reads_append ls rest)
  have htokens : .opener kind head.opener :: c.tokens =
      .opener kind opener :: (ts ++ tokensOf rest') := by
    have hall := hopen.tokens_eq
    rw [Cursor.tokens, h, tokensOf_append, hts] at hall
    exact hall.symm
  obtain ⟨hopener, hmore⟩ := List.cons.inj htokens
  obtain rfl := (Token.opener.inj hopener).2
  exact List.append_inj' h (length_of_meets hopening (hmeets hmore))

/-- Two opening tags in one place are of one kind. -/
theorem kind_of_opening {kind kind' : Opener} {head : BlockOpening}
    (hw : g.WritesOpening kind ls head) (hd : Derives (.opening kind') (tokensOf ls'))
    (h : ls ++ rest = ls' ++ rest') : kind = kind' := by
  obtain ⟨opener, ts, hts⟩ := exists_of_opening (derives_of_writesOpening hw)
  obtain ⟨opener', ts', hts'⟩ := exists_of_opening hd
  have htokens := congrArg tokensOf h
  rw [tokensOf_append, tokensOf_append, hts, hts'] at htokens
  exact (Token.opener.inj (List.cons.inj htokens).1).1

/-! ## Parts of statements -/

theorem ne_nil_of_statement {ts : List Token} (h : Derives .statement ts) : ts ≠ [] := by
  obtain ⟨t, ts', rfl, -⟩ := exists_of_statement h
  exact List.cons_ne_nil t ts'

theorem eq_nil_of_writesStatements {body : List Statement} (h : g.WritesStatements [] body) :
    body = [] := by
  generalize hls : [] = own at h
  cases h with
  | nil => rfl
  | cons hs _ =>
      obtain ⟨rfl, -⟩ := List.append_eq_nil_iff.mp hls.symm
      exact absurd rfl (ne_nil_of_statement (derives_of_writesStatement hs))

theorem writesStatements_single {s : Statement} (h : g.WritesStatement ls s) :
    g.WritesStatements ls [s] := by
  rw [← List.append_nil ls]
  exact .cons h .nil

/-- Tokens that are one statement write one statement. -/
theorem exists_of_single {body : List Statement} (h : g.WritesStatements ls body)
    (hd : Derives .statement (tokensOf ls)) : ∃ s, body = [s] ∧ g.WritesStatement ls s := by
  cases h with
  | nil => exact absurd rfl (ne_nil_of_statement hd)
  | @cons own more s _ hs h =>
      obtain ⟨hown, rfl⟩ := split_statement hs hd (List.append_nil (own ++ more)).symm
      obtain rfl := eq_nil_of_writesStatements h
      rw [List.append_nil]
      exact ⟨s, rfl, hs⟩

theorem eq_none_of_writesSection {chains : Bool} {other : Option ElseSection}
    (h : g.WritesSection chains [] other) : other = none := by
  generalize hls : [] = own at h
  cases h with
  | none => rfl
  | plain _ => cases hls
  | link hhead _ _ _ =>
      obtain ⟨rfl, -⟩ := List.append_eq_nil_iff.mp hls.symm
      obtain ⟨opener, ts, hts⟩ := exists_of_opening (derives_of_writesOpening hhead)
      cases hts

/-- The body of an else section without a call. -/
theorem exists_of_elseTag {chains : Bool} {text : Text} {s : Span} {other : Option ElseSection}
    (h : g.WritesSection chains (⟨.elseTag text, s⟩ :: ls) other) :
    ∃ body, g.WritesStatements ls body ∧
      other = some ⟨.ofDelimiters text text, Builder.program body none, false⟩ := by
  generalize hall : ⟨.elseTag text, s⟩ :: ls = all at h
  cases h with
  | none => cases hall
  | plain hbody =>
      cases hall
      exact ⟨_, hbody, rfl⟩
  | link hhead _ _ _ =>
      obtain ⟨opener, ts, hts⟩ := exists_of_opening (derives_of_writesOpening hhead)
      have htokens := congrArg tokensOf hall
      rw [tokensOf_append, hts] at htokens
      cases htokens

/-- The parts of a link of an else chain. -/
theorem exists_of_link_parts {other : Option ElseSection}
    (h : g.WritesSection true (ls ++ (ls' ++ ls'')) other)
    (hhead : Derives (.opening .chain) (tokensOf ls)) (hbody : Derives .statements (tokensOf ls'))
    (hother : Derives (.elseSection true) (tokensOf ls'')) :
    ∃ head body next block, g.WritesOpening .chain ls head ∧ g.WritesStatements ls' body ∧
      g.WritesSection true ls'' next ∧
      g.builder.block head (Builder.program body none) next
        (next.map fun s => (⟨none, s.strip⟩ : BlockClosing)) false
        (g.extentOf (ls ++ (ls' ++ ls''))) = .ok block ∧
      other = some ⟨head.strip, Builder.chainedProgram block (Builder.program body none).loc,
        true⟩ := by
  obtain ⟨opener, ts, hts⟩ := exists_of_opening hhead
  generalize hall : ls ++ (ls' ++ ls'') = all at h
  have htokens := congrArg tokensOf hall
  rw [tokensOf_append, hts] at htokens
  cases h with
  | none => cases htokens
  | plain _ => cases htokens
  | link hwhead hwbody hwother hblock =>
      obtain ⟨rfl, hmore⟩ := split_opening hwhead hhead hall.symm (by decide)
      obtain ⟨rfl, rfl⟩ := split_statements hwbody hbody hmore
        (by simpa using fronts_section (derives_of_writesSection hwother) .nil)
        (by simpa using fronts_section hother .nil)
      exact ⟨_, _, _, _, hwhead, hwbody, hwother, hblock, rfl⟩

/-- The parts of a block. -/
theorem exists_of_block_parts {s : Statement}
    (h : g.WritesStatement (ls ++ (ls' ++ (ls'' ++ own))) s)
    (hhead : Derives (.opening .block) (tokensOf ls)) (hbody : Derives .statements (tokensOf ls'))
    (hother : Derives (.elseSection true) (tokensOf ls''))
    (htail : Derives .closing (tokensOf own)) :
    ∃ head body other tail, g.WritesOpening .block ls head ∧ g.WritesStatements ls' body ∧
      g.WritesSection true ls'' other ∧ g.WritesClosing own tail ∧
      g.builder.block head (Builder.program body none) other (some tail) false
        (g.extentOf (ls ++ (ls' ++ (ls'' ++ own)))) = .ok s := by
  obtain ⟨opener, ts, hts⟩ := exists_of_opening hhead
  generalize hall : ls ++ (ls' ++ (ls'' ++ own)) = all at h
  have htokens := congrArg tokensOf hall
  rw [tokensOf_append, hts] at htokens
  cases h with
  | @block inverted _ _ _ _ _ _ _ _ _ hwhead hwbody hwother hwtail hblock =>
      cases inverted with
      | true => cases kind_of_opening hwhead hhead hall.symm
      | false =>
          obtain ⟨rfl, hmore⟩ := split_opening hwhead hhead hall.symm nofun
          have hends : ∀ {own own' : List Lexeme}, Derives (.elseSection true) (tokensOf own) →
              Derives .closing (tokensOf own') →
              Fronts Token.endsBody (tokensOf (own ++ own')) := by
            intro own own' hsection hclosing
            rw [tokensOf_append]
            refine fronts_section hsection ?_
            rw [← List.append_nil (tokensOf own')]
            exact fronts_closing hclosing
          obtain ⟨rfl, hmore'⟩ := split_statements hwbody hbody hmore
            (hends (derives_of_writesSection hwother) (derives_of_writesClosing hwtail))
            (hends hother htail)
          obtain ⟨rfl, rfl⟩ := split_section hwother hother hmore'
            (exists_of_closing (derives_of_writesClosing hwtail))
            (exists_of_closing htail)
          exact ⟨_, _, _, _, hwhead, hwbody, hwother, hwtail, hblock⟩
  | inclusionBlock hwhead _ _ _ => cases kind_of_opening hwhead hhead hall.symm
  | _ => cases htokens

end Grammar
end Stache
