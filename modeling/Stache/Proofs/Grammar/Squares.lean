import Mathlib
import Stache.Proofs.Grammar.Relocated
import Stache.Proofs.Token.Squares

/-!
# Templates without lists

Lists change only the templates that have them.  If a template is cut to its end where brackets
are segments, and each identifier in brackets is a segment behind a separator, then its tokens are
the same where brackets are lists.  None of them begins a list, so the function that makes an
expression of a list is never asked.
-/

namespace Stache

/-- The options with another meaning of brackets. -/
def Options.bracketed (b : BracketSyntax) (o : Options) : Options := { o with brackets := b }

/-- Where there are no lists, the same nodes are made in the same places. -/
theorem relocates_bracketed (o : Options) (b b' : BracketSyntax) (text : Text) :
    ((o.bracketed b).grammar text).Relocates id False ((o.bracketed b').grammar text) := by
  refine ⟨rfl, fun _ => rfl, fun _ _ => rfl, fun hash x => ?_, False.elim⟩
  rw [Hash.relocated_id, Expr.relocated_id]
  rfl

theorem map_relocated_id (outcome : Except ParseFailure Program) :
    (outcome.map (Program.relocated id)).mapError (ParseFailure.relocated id) = outcome := by
  cases outcome with
  | ok p => exact congrArg Except.ok p.relocated_id
  | error e => exact congrArg Except.error e.relocated_id

/-- **Lists change only the templates that have them.** -/
theorem squares_agree {text : Text} (hfault : (tokenize false text).fault = none)
    (hattached : Attached false (tokenize false text).lexemes) :
    tokenize true text = tokenize false text ∧ ∀ (o : Options) (b b' : BracketSyntax),
      parseRaw (o.bracketed b) text = parseRaw (o.bracketed b') text ∧
        parse (o.bracketed b) text = parse (o.bracketed b') text := by
  have hsquare := tokenize_square hfault hattached
  have hscan (b : BracketSyntax) : tokenize b.isList text = tokenize false text := by
    cases b.isList with
    | true => exact hsquare
    | false => rfl
  refine ⟨hsquare, fun o b b' => ?_⟩
  have hsame : tokenize b.isList text = tokenize b'.isList text :=
    (hscan b).trans (hscan b').symm
  have hlists : ∀ l ∈ (tokenize b'.isList text).lexemes, l.token = .arrayOpen → False := by
    rw [hscan b']
    exact fun l hl => ne_arrayOpen_of_tokenize hl
  have hbuild := relocates_bracketed o b' b text
  constructor
  · rw [parseRaw_relocated hbuild hsame hlists, map_relocated_id]
  · rw [parse_relocated hbuild hsame hlists rfl, map_relocated_id]

/-- `{{a.[b c] 1.5}}` -/
def bracketedPath : Text := "\x7b\x7ba.[b c] 1.5\x7d\x7d".toList

theorem squares_agree_bracketedPath : ∃ ls, tokenize false bracketedPath = ⟨ls, none⟩ ∧
    (ls.any fun l => l.token.isBracketed) = true ∧ tokenize true bracketedPath = ⟨ls, none⟩ ∧
    ∀ build, parse (Options.bracketed (.custom build) {}) bracketedPath =
      parse (Options.bracketed .segment {}) bracketedPath := by
  obtain ⟨ls, hls, hbracketed, hattached⟩ : ∃ ls, tokenize false bracketedPath = ⟨ls, none⟩ ∧
      (ls.any fun l => l.token.isBracketed) = true ∧ Attached false ls :=
    ⟨_, by cbv, by cbv, by decide⟩
  have hfault : (tokenize false bracketedPath).fault = none := by rw [hls]
  have hlexemes : (tokenize false bracketedPath).lexemes = ls := by rw [hls]
  rw [← hlexemes] at hattached
  obtain ⟨hsame, hparse⟩ := squares_agree hfault hattached
  exact ⟨ls, hls, hbracketed, hsame.trans hls, fun build => (hparse {} _ _).2⟩

end Stache
