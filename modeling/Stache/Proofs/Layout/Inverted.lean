import Stache.Proofs.Grammar.Outline
import Stache.Proofs.Layout.Chains
import Stache.Proofs.Layout.Outline

/-!
# Inverted blocks with an else section

The tree of an inverted block has its sections the other way round, and
whitespace control looks at the tree: it trims the section behind the else tag at
the opening tag, and the one in front of the else tag at the closing tag.  So an
inverted block with an else section comes out as the block that is not inverted
and has its sections exchanged (`remains_inverted`).
-/

namespace Stache
namespace Layout

open Grammar Outline

/-! ## A block in a template -/

/-- The tokens of a template without the opening delimiter and the two sections
of one block in it, which has an else section. -/
structure ElseBlock where
  /-- What stands before the block. -/
  before : List Token
  /-- What stands between the delimiters of the opening tag. -/
  head : List Token
  headCloser : Text
  elseTag : Text
  closeOpener : Text
  /-- What stands between the delimiters of the closing tag. -/
  name : List Token
  nameCloser : Text
  /-- What stands behind the block. -/
  after : List Token
  inner_head : AllInner head
  inner_name : AllInner name

namespace ElseBlock

/-- The tokens of the block with an opening delimiter and two sections. -/
def block (b : ElseBlock) (opener : Token) (main other : List Token) : List Token :=
  opener :: (b.head ++ [.closer b.headCloser]) ++
    (main ++ (.elseTag b.elseTag :: other ++
      .opener .close b.closeOpener :: (b.name ++ [.closer b.nameCloser])))

/-- The tokens of the template. -/
def template (b : ElseBlock) (opener : Token) (main other : List Token) : List Token :=
  b.before ++ (b.block opener main other ++ b.after)

end ElseBlock

/-- The opening delimiter of a block, which is inverted or not, with a marker or
without. -/
def blockOpener (inverted marked : Bool) : Token :=
  .opener (if inverted then .inverse else .block)
    ('{' :: '{' :: ((if marked then ['~'] else []) ++ [if inverted then '^' else '#']))

/-! ## Its outline -/

/-- A block with an else section, whatever was read before it. -/
theorem read_block (d : Draft) (b : ElseBlock) {kind : Opener} {opener : Text} {inverted : Bool}
    (hkind : kind.role = .opening inverted) {main other : List Token} {body body' : List Statement}
    (hmain : ∀ stack : Stack, Yields stack main (stack.extend body))
    (hother : ∀ stack : Stack, Yields stack other (stack.extend body')) :
    d.read (b.block (.opener kind opener) main other) =
      { stack := d.stack.extend (closed (.ofDelimiters b.closeOpener b.nameCloser)
          [⟨.opening inverted, .ofDelimiters opener b.headCloser, body⟩,
            ⟨.middle, .ofDelimiters b.elseTag b.elseTag, body'⟩]) } := by
  have hopening : Yields d.stack (.opener kind opener :: (b.head ++ [.closer b.headCloser])) _ :=
    .tag d.stack b.inner_head
  rw [hkind] at hopening
  have hsection : ∀ (bs : List Begun) (stack : Stack),
      Yields (bs :: stack) (.elseTag b.elseTag :: other)
        (([⟨.middle, .ofDelimiters b.elseTag b.elseTag, body'⟩].reverse ++ bs) :: stack) :=
    fun bs stack => hother ((⟨.middle, .ofDelimiters b.elseTag b.elseTag, []⟩ :: bs) :: stack)
  exact hopening.block hmain hsection fun stack => .tag stack b.inner_name

/-- An inverted block reads like the block that is not inverted and has its
sections exchanged. -/
theorem read_inverted (d : Draft) (b : ElseBlock) (marked : Bool) {main other : List Token}
    (hmain : Derives .statements main) (hother : Derives .statements other) :
    d.read (b.block (blockOpener true marked) main other) =
      d.read (b.block (blockOpener false marked) other main) := by
  obtain ⟨body, hbody⟩ := yields_of_derives hmain
  obtain ⟨body', hbody'⟩ := yields_of_derives hother
  rw [blockOpener, blockOpener, read_block d b rfl hbody hbody', read_block d b rfl hbody' hbody]
  cases marked <;> rfl

/-! ## What is left of the texts -/

/-- **Inverted blocks.**  In an accepted template the same is left of all texts
if an inverted block with an else section gives way to the block that is not
inverted and has its sections exchanged. -/
theorem remains_inverted {o : Options} {text text' : Text} {p p' : Program}
    (h : parse o text = .ok p) (h' : parse o text' = .ok p') {b : ElseBlock} {marked : Bool}
    {main other : List Token} (hmain : Derives .statements main)
    (hother : Derives .statements other)
    (htokens : o.tokens text = b.template (blockOpener true marked) main other)
    (htokens' : o.tokens text' = b.template (blockOpener false marked) other main) :
    p.contents.map remains = p'.contents.map remains := by
  obtain ⟨q, hraw, rfl⟩ := exists_of_parse h
  obtain ⟨q', hraw', rfl⟩ := exists_of_parse h'
  obtain ⟨body, houtline, hread⟩ := yields_of_parseRaw hraw
  obtain ⟨body', houtline', hread'⟩ := yields_of_parseRaw hraw'
  have hbody : body = body' := by
    rw [htokens, Yields, ElseBlock.template, Draft.read_append, Draft.read_append,
      read_inverted _ b marked hmain hother, ← Draft.read_append, ← Draft.read_append] at hread
    rw [htokens', Yields, ElseBlock.template, hread] at hread'
    injection hread' with hstack
    simpa [blank, Stack.extend] using hstack
  have hraw := (spelled_of_parseRaw hraw).raw
  have hraw' := (spelled_of_parseRaw hraw').raw
  exact remains_of_outline_eq hraw hraw' (by rw [houtline, houtline', hbody]) true

/-- The block `{{#x~}} A {{else}} B {{/x}}` with a sign of its own and with other
sections. -/
def blockSource (sign main other : String) : Text :=
  ("\x7b\x7b" ++ sign ++ "x~\x7d\x7d" ++ main ++ "\x7b\x7belse\x7d\x7d" ++ other ++
    "\x7b\x7b/x\x7d\x7d").toList

/-- The marker of the opening tag takes the white space of the section behind
the else tag, so it is not the same that is left of the texts of a block and of
the inverted block, in any order. -/
theorem remains_inverted_ne :
    ∃ p p', parse paddingKept (blockSource "^" " A " " B ") = .ok p ∧
      parse paddingKept (blockSource "#" " A " " B ") = .ok p' ∧
      p.contents.map remains = [(" B ".toList, "B ".toList), (" A ".toList, " A ".toList)] ∧
      p'.contents.map remains = [(" A ".toList, "A ".toList), (" B ".toList, " B ".toList)] ∧
      ¬(p.contents.map remains).Perm (p'.contents.map remains) := by
  have hinverted : (parse paddingKept (blockSource "^" " A " " B ")).map
      (fun p => p.contents.map remains) =
      .ok [(" B ".toList, "B ".toList), (" A ".toList, " A ".toList)] := by cbv
  have hplain : (parse paddingKept (blockSource "#" " A " " B ")).map
      (fun p => p.contents.map remains) =
      .ok [(" A ".toList, "A ".toList), (" B ".toList, " B ".toList)] := by cbv
  obtain ⟨p, hp, hremains⟩ := exists_of_map_eq_ok hinverted
  obtain ⟨p', hp', hremains'⟩ := exists_of_map_eq_ok hplain
  refine ⟨p, p', hp, hp', hremains, hremains', ?_⟩
  rw [hremains, hremains']
  decide

/-- The inverted block comes out like the block with its sections exchanged. -/
theorem remains_inverted_exchanged :
    ∃ p p', parse paddingKept (blockSource "^" " A " " B ") = .ok p ∧
      parse paddingKept (blockSource "#" " B " " A ") = .ok p' ∧
      p.contents.map remains = p'.contents.map remains := by
  have hinverted : (parse paddingKept (blockSource "^" " A " " B ")).map (fun _ => ()) = .ok () := by
    cbv
  have hexchanged : (parse paddingKept (blockSource "#" " B " " A ")).map (fun _ => ()) = .ok () := by
    cbv
  obtain ⟨p, hp, -⟩ := exists_of_map_eq_ok hinverted
  obtain ⟨p', hp', -⟩ := exists_of_map_eq_ok hexchanged
  let b : ElseBlock :=
    { before := []
      head := [.ident ['x']]
      headCloser := "~\x7d\x7d".toList
      elseTag := "\x7b\x7belse\x7d\x7d".toList
      closeOpener := "\x7b\x7b/".toList
      name := [.ident ['x']]
      nameCloser := "\x7d\x7d".toList
      after := []
      inner_head := .cons rfl .nil
      inner_name := .cons rfl .nil }
  have htokens : paddingKept.tokens (blockSource "^" " A " " B ") =
      b.template (blockOpener true false) [.content " A ".toList] [.content " B ".toList] := by
    cbv
  have htokens' : paddingKept.tokens (blockSource "#" " B " " A ") =
      b.template (blockOpener false false) [.content " B ".toList] [.content " A ".toList] := by
    cbv
  exact ⟨p, p', hp, hp', remains_inverted hp hp' (.statementsCons .content .statementsNil)
    (.statementsCons .content .statementsNil) htokens htokens'⟩

end Layout
end Stache
