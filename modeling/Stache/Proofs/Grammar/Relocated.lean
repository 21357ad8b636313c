import Stache.Parse
import Stache.Proofs.Grammar.Relocates
import Stache.Proofs.Layout.Relocated

/-!
# Grammars that differ in places

Two grammars over one text, whose builders relocate, read the same tokens to the same end.
Every production of the second makes the node of the first in other places, or refuses with
the same refusal in other places.

The productions call each other, so the theorems on expressions and those on statements are
mutual as the productions are, and end by the number of tokens left.  A production's last step
makes a node, and there its equation on the builder is cited.
-/

namespace Stache
namespace Grammar

variable {f : Location → Location} {lists : Prop} {g g' : Grammar}

/-! ## Nodes -/

/-- The nodes that the two builders make of what a production has read. -/
theorem relocated_node {α : Type} {val : α → α} (h : Relocates f lists g g')
    {node node' : Extent → α} (hnode : ∀ x, node' x = val (node x)) (start : Nat) {bound : Nat}
    {c : Cursor} (hc : c.Allows lists) (hlt : c.rest.length < bound) :
    Relocated f lists val (.ok ⟨node (g.extent start c), c, hlt⟩)
      (.ok ⟨node' (g'.extent start c), c, hlt⟩) := by
  refine .ok ?_ rfl hc
  rw [h.extent]
  exact hnode _

/-! ## Paths -/

/-- Segments hold no places. -/
theorem relocated_moreSegments {c : Cursor} (hc : c.Allows lists) :
    Relocated f lists id (moreSegments c) (moreSegments c) := by
  rw [moreSegments]
  cases hnext : c.next? with
  | none => exact .ok rfl rfl hc
  | some p =>
      obtain ⟨⟨token, s⟩, c₁, h₁⟩ := p
      have hc₁ := allows_next hc hnext
      cases token with
      | separator kind =>
          refine .bind (.commit c₁ (relocated_expect hc₁ _ _)) fun name c₂ h₂ hc₂ => ?_
          refine .bind (relocated_moreSegments hc₂) fun more c₃ h₃ hc₃ => ?_
          exact .ok rfl rfl hc₃
      | _ => exact .ok rfl rfl hc
termination_by c.rest.length

theorem relocated_segments {c : Cursor} (hc : c.Allows lists) :
    Relocated f lists id (segments c) (segments c) := by
  refine .bind (relocated_expect hc _ _) fun name c₁ h₁ hc₁ => ?_
  refine .bind (relocated_moreSegments hc₁) fun more c₂ h₂ hc₂ => ?_
  exact .ok rfl rfl hc₂

theorem relocated_afterSub (h : Relocates f lists g g') (start : Nat) (sub : SubExpr) {c : Cursor}
    (hc : c.Allows lists) :
    Relocated f lists (Expr.relocated f) (afterSub g start sub c)
      (afterSub g' start (sub.relocated f) c) := by
  rw [afterSub, afterSub]
  cases hnext : c.next? with
  | none => exact .ok rfl rfl hc
  | some p =>
      obtain ⟨⟨token, s⟩, c₁, h₁⟩ := p
      have hc₁ := allows_next hc hnext
      cases token with
      | separator kind =>
          refine .bind (relocated_segments hc₁) fun more c₂ h₂ hc₂ => ?_
          dsimp only
          rw [h.extent]
          refine .lift (h.builder.path false (some sub) more _) fun path => ?_
          exact .ok rfl rfl hc₂
      | _ => exact .ok rfl rfl hc

/-! ## Expressions -/

mutual

/-- An expression is read alike with both builders. -/
theorem relocated_expr (h : Relocates f lists g g') {c : Cursor} (hc : c.Allows lists) :
    Relocated f lists (Expr.relocated f) (expr g c) (expr g' c) := by
  rw [expr, expr]
  cases hnext : c.next? with
  | none => exact .refuse c .expression
  | some p =>
      obtain ⟨⟨token, s⟩, c₁, h₁⟩ := p
      have hc₁ := allows_next hc hnext
      dsimp only
      cases token with
      | ident name =>
          refine .bind (relocated_moreSegments hc₁) fun more c₂ h₂ hc₂ => ?_
          dsimp only
          rw [h.extent]
          refine .lift (h.builder.path false none _ _) fun path => ?_
          exact .ok rfl rfl hc₂
      | data =>
          refine .bind (.commit c₁ (relocated_segments hc₁)) fun more c₂ h₂ hc₂ => ?_
          dsimp only
          rw [h.extent]
          refine .lift (h.builder.path true none _ _) fun path => ?_
          exact .ok rfl rfl hc₂
      | parenOpen =>
          refine .commit c₁ ?_
          cases c₁.atPair with
          | true =>
              refine .bind (relocated_pairs h hc₁) fun list c₂ h₂ hc₂ => ?_
              refine .bind (relocated_expect hc₂ _ _) fun _ c₃ h₃ hc₃ => ?_
              refine .ok ?_ rfl hc₃
              dsimp only [Parsed.loose, Parsed.after]
              rw [h.extent, h.locate]
              exact h.builder.hashLiteral ⟨list, _⟩ _
          | false =>
              refine .bind (relocated_call h hc₁) fun called c₂ h₂ hc₂ => ?_
              refine .bind (relocated_expect hc₂ _ _) fun _ c₃ h₃ hc₃ => ?_
              dsimp only
              rw [h.extent, h.text, h.builder.subExpr]
              refine .bind (relocated_afterSub h _ _ hc₃) fun e c₄ h₄ hc₄ => ?_
              exact .ok rfl rfl hc₄
      | arrayOpen =>
          refine .commit c₁ (.bind (relocated_items h hc₁) fun list c₂ h₂ hc₂ => ?_)
          refine .bind (relocated_expect hc₂ _ _) fun _ c₃ h₃ hc₃ => ?_
          refine .ok ?_ rfl hc₃
          dsimp only [Parsed.loose, Parsed.after]
          rw [h.extent]
          exact h.builder.array (lists_of_next hc hnext rfl) list _
      | string value => exact relocated_node h (h.builder.string value) _ hc₁ _
      | number text => exact relocated_node h (h.builder.number text) _ hc₁ _
      | boolean value => exact relocated_node h (h.builder.boolean value) _ hc₁ _
      | undefined => exact relocated_node h h.builder.undefined _ hc₁ _
      | null => exact relocated_node h h.builder.null _ hc₁ _
      | _ => exact .refuse c .expression
termination_by 2 * c.rest.length

/-- A call is read alike with both builders. -/
theorem relocated_call (h : Relocates f lists g g') {c : Cursor} (hc : c.Allows lists) :
    Relocated f lists (Call.relocated f) (call g c) (call g' c) := by
  rw [call, call]
  refine .bind (relocated_expr h hc) fun head c₁ h₁ hc₁ => ?_
  refine .bind (relocated_params h hc₁) fun list c₂ h₂ hc₂ => ?_
  refine .bind (relocated_pairs h hc₂) fun named c₃ h₃ hc₃ => ?_
  refine .ok ?_ rfl hc₃
  exact congrArg (Call.mk _ _) (h.hashOf _ _ named)
termination_by 2 * c.rest.length + 1

/-- Arguments are read alike, up to the first key. -/
theorem relocated_params (h : Relocates f lists g g') {c : Cursor} (hc : c.Allows lists) :
    Relocated f lists (exprsRelocated f) (params g c) (params g' c) := by
  rw [params, params]
  split
  · refine .bind (relocated_expr h hc) fun e c₁ h₁ hc₁ => ?_
    refine .bind (relocated_params h hc₁) fun more c₂ h₂ hc₂ => ?_
    exact .ok rfl rfl hc₂
  · exact .ok rfl rfl hc
termination_by 2 * c.rest.length + 1

/-- The items of a list are read alike. -/
theorem relocated_items (h : Relocates f lists g g') {c : Cursor} (hc : c.Allows lists) :
    Relocated f lists (exprsRelocated f) (items g c) (items g' c) := by
  rw [items, items]
  split
  · refine .bind (relocated_expr h hc) fun e c₁ h₁ hc₁ => ?_
    refine .bind (relocated_items h hc₁) fun more c₂ h₂ hc₂ => ?_
    exact .ok rfl rfl hc₂
  · exact .ok rfl rfl hc
termination_by 2 * c.rest.length + 1

/-- Named arguments are read alike. -/
theorem relocated_pairs (h : Relocates f lists g g') {c : Cursor} (hc : c.Allows lists) :
    Relocated f lists (pairsRelocated f) (pairs g c) (pairs g' c) := by
  rw [pairs, pairs]
  cases hnext : c.next? with
  | none => exact .ok rfl rfl hc
  | some p =>
      obtain ⟨⟨token, s⟩, c₁, h₁⟩ := p
      have hc₁ := allows_next hc hnext
      cases token with
      | ident key =>
          dsimp only
          cases hnext₁ : c₁.next? with
          | none => exact .ok rfl rfl hc
          | some p =>
              obtain ⟨⟨token, s'⟩, c₂, h₂⟩ := p
              have hc₂ := allows_next hc₁ hnext₁
              cases token with
              | equals =>
                  refine .bind (.commit c₂ (relocated_expr h hc₂)) fun value c₃ h₃ hc₃ => ?_
                  refine .bind (relocated_pairs h hc₃) fun more c₄ h₄ hc₄ => ?_
                  refine .ok ?_ rfl hc₄
                  dsimp only [Parsed.loose, Parsed.after]
                  rw [h.locate]
                  rfl
              | _ => exact .ok rfl rfl hc
      | _ => exact .ok rfl rfl hc
termination_by 2 * c.rest.length + 1

end

/-! ## Tags -/

theorem allows_idents {c : Cursor} (hc : c.Allows lists) : (idents c).cursor.Allows lists := by
  rw [idents]
  cases hnext : c.next? with
  | none => exact hc
  | some p =>
      obtain ⟨⟨token, s⟩, c₁, h₁⟩ := p
      cases token with
      | ident name => exact allows_idents (allows_next hc hnext)
      | _ => exact hc
termination_by c.rest.length

/-- Block parameters hold no places. -/
theorem relocated_blockParams {c : Cursor} (hc : c.Allows lists) :
    Relocated f lists id (blockParams c) (blockParams c) := by
  rw [blockParams]
  cases hnext : c.next? with
  | none => exact .ok rfl rfl hc
  | some p =>
      obtain ⟨⟨token, s⟩, c₁, h₁⟩ := p
      have hc₁ := allows_next hc hnext
      cases token with
      | paramsOpen =>
          refine .commit c₁ (.bind (relocated_expect hc₁ _ _) fun first c₂ h₂ hc₂ => ?_)
          refine .bind (relocated_expect (allows_idents hc₂) _ _) fun _ c₄ h₄ hc₄ => ?_
          exact .ok rfl rfl hc₄
      | _ => exact .ok rfl rfl hc

/-- An opening tag is read alike with both builders. -/
theorem relocated_opening (h : Relocates f lists g g') (named : Bool) (opener : Text) {c : Cursor}
    (hc : c.Allows lists) :
    Relocated f lists (BlockOpening.relocated f) (opening g named opener c)
      (opening g' named opener c) := by
  refine .commit c (.bind (relocated_call h hc) fun called c₁ h₁ hc₁ => ?_)
  cases named with
  | true =>
      refine .bind (relocated_blockParams hc₁) fun names c₂ h₂ hc₂ => ?_
      refine .bind (relocated_expect hc₂ _ _) fun closer c₃ h₃ hc₃ => ?_
      exact .ok rfl rfl hc₃
  | false =>
      refine .bind (relocated_expect hc₁ _ _) fun closer c₂ h₂ hc₂ => ?_
      exact .ok rfl rfl hc₂

/-- A closing tag is read alike with both builders. -/
theorem relocated_closing (h : Relocates f lists g g') {c : Cursor} (hc : c.Allows lists) :
    Relocated f lists (BlockClosing.relocated f) (closing g c) (closing g' c) := by
  refine .bind (relocated_expect hc _ _) fun opener c₁ h₁ hc₁ => ?_
  refine .commit c₁ (.bind (relocated_expr h hc₁) fun path c₂ h₂ hc₂ => ?_)
  refine .bind (relocated_expect hc₂ _ _) fun closer c₃ h₃ hc₃ => ?_
  exact .ok rfl rfl hc₃

/-- A mustache is read alike with both builders. -/
theorem relocated_mustache (h : Relocates f lists g g') (start : Nat) (unescaped : Bool)
    (opener : Text) {c : Cursor} (hc : c.Allows lists) :
    Relocated f lists (Statement.relocated f) (mustache g start unescaped opener c)
      (mustache g' start unescaped opener c) := by
  refine .commit c (.bind (relocated_call h hc) fun called c₁ h₁ hc₁ => ?_)
  have hbuilt (strip : Strip) (c₂ : Cursor) :
      g'.builder.mustache opener (called.relocated f) strip (g'.extent start c₂) =
        (g.builder.mustache opener called strip (g.extent start c₂)).relocated f := by
    rw [h.extent]
    exact h.builder.mustache opener called strip _
  cases unescaped with
  | true =>
      refine .bind (relocated_expect hc₁ _ _) fun closer c₂ h₂ hc₂ => ?_
      exact .ok (hbuilt _ c₂) rfl hc₂
  | false =>
      refine .bind (relocated_expect hc₁ _ _) fun closer c₂ h₂ hc₂ => ?_
      exact .ok (hbuilt _ c₂) rfl hc₂

theorem relocated_inclusion (h : Relocates f lists g g') (start : Nat) (opener : Text) {c : Cursor}
    (hc : c.Allows lists) :
    Relocated f lists (Statement.relocated f) (inclusion g start opener c)
      (inclusion g' start opener c) := by
  refine .commit c (.bind (relocated_call h hc) fun called c₁ h₁ hc₁ => ?_)
  refine .bind (relocated_expect hc₁ _ _) fun closer c₂ h₂ hc₂ => ?_
  refine .ok ?_ rfl hc₂
  dsimp only [Parsed.loose, Parsed.after]
  rw [h.extent]
  exact h.builder.inclusion called _ _

/-! ## Raw blocks -/

/-- The texts of a raw block are read alike with both builders. -/
theorem relocated_contents (h : Relocates f lists g g') {c : Cursor} (hc : c.Allows lists) :
    contents g' c =
        ⟨Body.relocated f (contents g c).value, (contents g c).cursor, (contents g c).fits⟩ ∧
      (contents g c).cursor.Allows lists := by
  rw [contents, contents]
  cases hnext : c.next? with
  | none => exact ⟨rfl, hc⟩
  | some p =>
      obtain ⟨⟨token, s⟩, c₁, h₁⟩ := p
      cases token with
      | content text =>
          obtain ⟨hmore, hallows⟩ := relocated_contents h (allows_next hc hnext)
          refine ⟨?_, hallows⟩
          dsimp only
          rw [hmore, h.extent, h.builder.content]
          rfl
      | _ => exact ⟨rfl, hc⟩
termination_by c.rest.length

/-- A raw block is read alike, or refused at the relocated place. -/
theorem relocated_rawBlock (h : Relocates f lists g g') (start : Nat) {c : Cursor}
    (hc : c.Allows lists) :
    Relocated f lists (Statement.relocated f) (rawBlock g start c) (rawBlock g' start c) := by
  refine .commit c (.bind (relocated_call h hc) fun called c₁ h₁ hc₁ => ?_)
  refine .bind (relocated_expect hc₁ _ _) fun _ c₂ h₂ hc₂ => ?_
  obtain ⟨hbody, hc₃⟩ := relocated_contents h hc₂
  dsimp only
  rw [hbody]
  generalize contents g c₂ = p at hc₃ ⊢
  obtain ⟨body, c₃, h₃⟩ := p
  refine .bind (relocated_expect hc₃ _ _) fun name c₄ h₄ hc₄ => ?_
  dsimp only
  rw [h.extent]
  refine .lift (h.builder.rawBlock called body name _) fun block => ?_
  exact .ok rfl rfl hc₄

/-! ## Statements -/

mutual

/-- **Statements are read alike with both builders.** -/
theorem relocated_statements (h : Relocates f lists g g') {c : Cursor} (hc : c.Allows lists) :
    Relocated f lists (Body.relocated f) (statements g c) (statements g' c) := by
  rw [statements, statements]
  split
  · refine .bind (relocated_statement h hc) fun s c₁ h₁ hc₁ => ?_
    refine .bind (relocated_statements h hc₁) fun more c₂ h₂ hc₂ => ?_
    exact .ok rfl rfl hc₂
  · exact .ok rfl rfl hc
termination_by 2 * c.rest.length + 1

/-- A statement is read alike, or refused at the relocated place. -/
theorem relocated_statement (h : Relocates f lists g g') {c : Cursor} (hc : c.Allows lists) :
    Relocated f lists (Statement.relocated f) (statement g c) (statement g' c) := by
  rw [statement, statement]
  cases hnext : c.next? with
  | none => exact .refuse c .endOfInput
  | some p =>
      obtain ⟨⟨token, s⟩, c₁, h₁⟩ := p
      have hc₁ := allows_next hc hnext
      dsimp only
      cases token with
      | content text => exact relocated_node h (h.builder.content text) _ hc₁ _
      | comment text => exact relocated_node h (h.builder.comment text) _ hc₁ _
      | opener kind opener =>
          cases kind with
          | plain | unescaped =>
              refine .bind (relocated_mustache h _ _ opener hc₁) fun s c₂ h₂ hc₂ => ?_
              exact .ok rfl rfl hc₂
          | inclusion =>
              refine .bind (relocated_inclusion h _ opener hc₁) fun s c₂ h₂ hc₂ => ?_
              exact .ok rfl rfl hc₂
          | block | inverse =>
              refine .bind (relocated_opening h true opener hc₁) fun head c₂ h₂ hc₂ => ?_
              dsimp only
              refine .commit c₂ (.bind (relocated_statements h hc₂) fun body c₃ h₃ hc₃ => ?_)
              refine .bind (relocated_section? h _ hc₃) fun other c₄ h₄ hc₄ => ?_
              refine .bind (relocated_closing h hc₄) fun tail c₅ h₅ hc₅ => ?_
              dsimp only
              rw [h.extent, Builder.relocated_program h.builder.through]
              refine .lift (h.builder.block head _ other (some tail) _ _) fun block => ?_
              exact .ok rfl rfl hc₅
          | inclusionBlock =>
              refine .bind (relocated_opening h false opener hc₁) fun head c₂ h₂ hc₂ => ?_
              dsimp only
              refine .commit c₂ (.bind (relocated_statements h hc₂) fun body c₃ h₃ hc₃ => ?_)
              refine .bind (relocated_closing h hc₃) fun tail c₄ h₄ hc₄ => ?_
              dsimp only
              rw [h.extent, Builder.relocated_program h.builder.through]
              refine .lift (h.builder.inclusionBlock head _ tail _) fun block => ?_
              exact .ok rfl rfl hc₄
          | close | chain => exact .refuse c .endOfInput
      | rawOpener =>
          refine .bind (relocated_rawBlock h _ hc₁) fun s c₂ h₂ hc₂ => ?_
          exact .ok rfl rfl hc₂
      | _ => exact .refuse c .endOfInput
termination_by 2 * c.rest.length

/-- An else section is read alike, with all the links behind it. -/
theorem relocated_section? (h : Relocates f lists g g') (chains : Bool) {c : Cursor}
    (hc : c.Allows lists) :
    Relocated f lists (Option.map (ElseSection.relocated f)) (section? g chains c)
      (section? g' chains c) := by
  rw [section?, section?]
  cases hnext : c.next? with
  | none => exact .ok rfl rfl hc
  | some p =>
      obtain ⟨⟨token, s⟩, c₁, h₁⟩ := p
      have hc₁ := allows_next hc hnext
      dsimp only
      cases token with
      | elseTag text =>
          refine .bind (relocated_statements h hc₁) fun body c₂ h₂ hc₂ => ?_
          refine .ok ?_ rfl hc₂
          dsimp only [Parsed.loose, Parsed.after]
          rw [Builder.relocated_program h.builder.through]
          rfl
      | opener kind opener =>
          cases kind with
          | chain =>
              cases chains with
              | true =>
                  refine .bind (relocated_opening h true opener hc₁) fun head c₂ h₂ hc₂ => ?_
                  dsimp only
                  refine .commit c₂ (.bind (relocated_statements h hc₂) fun body c₃ h₃ hc₃ => ?_)
                  refine .bind (relocated_section? h true hc₃) fun other c₄ h₄ hc₄ => ?_
                  have htail : (other.map (ElseSection.relocated f)).map
                      (fun s => (⟨none, s.strip⟩ : BlockClosing)) =
                        (other.map fun s => (⟨none, s.strip⟩ : BlockClosing)).map
                          (BlockClosing.relocated f) := by
                    cases other <;> rfl
                  dsimp only
                  rw [h.extent, Builder.relocated_program h.builder.through, htail]
                  refine .lift (h.builder.block head _ other _ false _) fun block => ?_
                  refine .ok ?_ rfl hc₄
                  have hlink := Builder.relocated_chainedProgram h.builder.through block
                    (Builder.program body none).loc
                  exact congrArg (fun p => some (ElseSection.mk head.strip p true)) hlink
              | false => exact .ok rfl rfl hc
          | _ => exact .ok rfl rfl hc
      | _ => exact .ok rfl rfl hc
termination_by 2 * c.rest.length

end

/-! ## Programs -/

/-- The program of the second grammar is that of the first, relocated. -/
theorem relocated_program (h : Relocates f lists g g') {lexemes : List Lexeme}
    (hlists : ∀ l ∈ lexemes, l.token = .arrayOpen → lists) :
    g'.program lexemes =
      ((g.program lexemes).map (Program.relocated f)).mapError (Refusal.relocated f) := by
  have hbody := relocated_statements h (c := ⟨⟨0, 0⟩, lexemes⟩) hlists
  rw [program, program]
  generalize statements g ⟨⟨0, 0⟩, lexemes⟩ = x at hbody ⊢
  generalize statements g' ⟨⟨0, 0⟩, lexemes⟩ = x' at hbody ⊢
  cases hbody with
  | error r => rfl
  | @ok p p' value cursor _ =>
      obtain ⟨body, c, _⟩ := p
      obtain ⟨_, _, _⟩ := p'
      cases value
      cases cursor
      show (if c.rest.isEmpty then _ else _) =
        Except.mapError _ (Except.map _ (if c.rest.isEmpty then _ else _))
      cases c.rest.isEmpty with
      | true => exact congrArg Except.ok (Builder.relocated_program h.builder.through body)
      | false => rfl

/-- The second grammar makes the program of the first in other places, or reports the same in
other places. -/
theorem relocated_parse (h : Relocates f lists g g') {lexemes : List Lexeme}
    (hlists : ∀ l ∈ lexemes, l.token = .arrayOpen → lists) :
    g'.parse lexemes =
      ((g.parse lexemes).map (Program.relocated f)).mapError (Diagnostic.relocated f) := by
  rw [parse, parse, relocated_program h hlists, h.text]
  cases g.program lexemes with
  | ok p => rfl
  | error r => exact congrArg Except.error (r.diagnostic_relocated h.location lexemes)

/-! ## Templates -/

/-- A fault of the scanner is reported at the relocated place. -/
theorem relocated_fault (h : Relocates f lists g g') (fault : Fault) :
    fault.diagnostic g'.text g'.builder.source =
      (fault.diagnostic g.text g.builder.source).relocated f := by
  rw [Fault.diagnostic, h.text, h.location]
  rfl

/-- What is reported with a fault of the scanner is relocated with it. -/
theorem relocated_lexicalReport (h : Relocates f lists g g') {lexing : Lexing}
    (hlists : ∀ l ∈ lexing.lexemes, l.token = .arrayOpen → lists) (fault : Fault) :
    lexicalReport g' lexing fault = (lexicalReport g lexing fault).relocated f := by
  have hfinished : ∀ l ∈ lexing.finished, l.token = .arrayOpen → lists := fun l hl =>
    hlists l (List.mem_reverse.mp ((List.dropWhile_sublist _).mem (List.mem_reverse.mp hl)))
  rw [lexicalReport, lexicalReport, relocated_parse h hfinished, relocated_fault h]
  cases g.parse lexing.finished with
  | ok p => rfl
  | error d =>
      show (if d.code = some .incompleteInput then _ else _) = _
      dsimp only
      split <;> rfl

end Grammar

section

variable {f : Location → Location} {lists : Prop} {o o' : Options} {text : Text}
  (h : (o.grammar text).Relocates f lists (o'.grammar text))
  (hscan : tokenize o'.brackets.isList text = tokenize o.brackets.isList text)
  (hlists : ∀ l ∈ (tokenize o.brackets.isList text).lexemes, l.token = .arrayOpen → lists)

include h hscan hlists

/-- Under options that cut a text alike and build alike but for places, parsing makes the same
tree or the same failure in other places. -/
theorem parseRaw_relocated :
    parseRaw o' text =
      ((parseRaw o text).map (Program.relocated f)).mapError (ParseFailure.relocated f) := by
  rw [parseRaw, parseRaw, hscan]
  generalize tokenize o.brackets.isList text = lexing at hlists ⊢
  cases lexing.fault with
  | some fault =>
      exact congrArg (fun d => Except.error (ParseFailure.one d))
        (Grammar.relocated_lexicalReport h hlists fault)
  | none =>
      dsimp only
      rw [Grammar.relocated_parse h hlists]
      cases (o.grammar text).parse lexing.lexemes <;> rfl

/-- **The result of a parse with one builder is that with the other, relocated.** -/
theorem parse_relocated (hpadding : o'.ignoreStandalone = o.ignoreStandalone) :
    parse o' text =
      ((parse o text).map (Program.relocated f)).mapError (ParseFailure.relocated f) := by
  have hnormalize : ∀ p, normalize o' p = normalize o p := fun p => by
    rw [normalize, normalize, hpadding]
  rw [parse, parse, parseRaw_relocated h hscan hlists]
  cases parseRaw o text with
  | error e => rfl
  | ok p =>
      show Except.ok (normalize o' (p.relocated f)) = .ok ((normalize o p).relocated f)
      rw [hnormalize, normalize_relocated]

end

end Stache
