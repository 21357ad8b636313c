import Stache.Proofs.Grammar.ReadBack
import Stache.Proofs.Token.Quotes

/-!
# Strings are read back

A text in quotes is the string that it says, with a backslash in front of every quote of its own
kind and nothing else done to it (`readsString_quotedTemplate`).
-/

namespace Stache

/-- The template is one tag, which calls `f` with the text as its only parameter. -/
def ReadsString (s : Text) (result : Except ParseFailure Program) : Prop :=
  ∃ tree node head loc, result = .ok tree ∧ tree.body = [.mustache node] ∧
    node.call = ⟨.path head, [.string s s loc], none⟩ ∧ head.written = ['f']

/-- **A text in quotes is read back.**  For either quote and every text, whatever it holds, the
template `{{f "text"}}` with a backslash in front of every such quote in the text is one call of `f`
with the text as its only parameter.  This is so under any options, with the whitespace of the
template normalized or not. -/
theorem readsString_quotedTemplate (o : Options) {quote : Char}
    (hquote : quote = '\x22' ∨ quote = '\x27') (s : Text) :
    ReadsString s (parseRaw o (quotedTemplate quote s)) ∧
      ReadsString s (parse o (quotedTemplate quote s)) := by
  obtain ⟨ls, htokens, hls⟩ := tokenize_quotedTemplate hquote s
  obtain ⟨s₁, own, s₂, s₃, rfl, hown⟩ := Grammar.exists_tag_of_tokensOf hls
  obtain ⟨s₄, rest, rfl, hrest⟩ := Grammar.exists_of_tokensOf hown
  obtain rfl : rest = [] := List.map_eq_nil_iff.mp hrest
  have hstring : (o.grammar (quotedTemplate quote s)).WritesExpr [⟨.string s, s₄⟩] _ := .string
  obtain ⟨node, head, hprogram, hcall⟩ := Grammar.exists_program_of_param hstring
  rw [parse, parseRaw_of_tokenize htokens, Grammar.parse, hprogram]
  exact ⟨⟨_, node, head, _, rfl, rfl, hcall⟩, ⟨_, node, head, _, rfl, rfl, hcall⟩⟩

/-- Two backslashes in front of a quote, a brace on a new line, and a backslash at the end. -/
def quotesText : Text := ['\\', '\\', '\x22', '}', '}', '\n', '\x27', 'é', '\\']

example : quotedTemplate '\x22' quotesText =
    "\x7b\x7bf \"\\\\\\\"\x7d\x7d\n'é\\\"\x7d\x7d".toList := by decide

/-- This text is read back in either quote. -/
theorem readsString_quotesText :
    (('\x22' = '\x22' ∨ '\x22' = '\x27') ∧
        ReadsString quotesText (parse {} (quotedTemplate '\x22' quotesText))) ∧
      ('\x27' = '\x22' ∨ '\x27' = '\x27') ∧
        ReadsString quotesText (parse {} (quotedTemplate '\x27' quotesText)) :=
  ⟨⟨.inl rfl, (readsString_quotedTemplate {} (.inl rfl) quotesText).2⟩, .inr rfl,
    (readsString_quotedTemplate {} (.inr rfl) quotesText).2⟩

end Stache
