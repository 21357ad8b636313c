import Mathlib
import Stache.Proofs.Grammar.Located
import Stache.Proofs.Grammar.Parentheses

/-!
# The keys of a hash

The keys of a hash are the names in front of its `=` signs.  `keysIn` reads them off the tokens of
the hash.  It passes over what stands in parentheses and brackets, for the names in there belong to
other hashes.

No value changes what is read: its tokens close as many parentheses and brackets as they open, and
no name in it stands in front of an `=` outside of them (`Derives.passed`).  So every hash of a tree
has exactly the keys that its own tokens give it, in their order (`keyed_of_parseRaw`).

Nothing looks for a key that was there before.  A name that is written twice is a key twice
(`keys_repeatedKeys`).
-/

namespace Stache

/-! ## Keys as they are written -/

/-- How many parentheses and brackets are open behind the token, if `depth` of them are in front of
it. -/
def Token.depthBehind (depth : Nat) : Token → Nat
  | .parenOpen | .arrayOpen => depth + 1
  | .parenClose | .arrayClose => depth - 1
  | _ => depth

/-- The key that the tokens start with, in front of its `=`. -/
def keyAt? : List Token → Option Text
  | .ident name :: .equals :: _ => some (unbracket name)
  | _ => none

/-- The keys outside of parentheses and brackets, of which `depth` are open. -/
def keysIn : Nat → List Token → List Text
  | _, [] => []
  | depth, t :: ts =>
      (if depth = 0 then keyAt? (t :: ts) else none).toList ++ keysIn (t.depthBehind depth) ts

variable {depth : Nat} {t : Token} {ts ts' rest : List Token}

theorem keyAt?_ident {name : Text} (h : rest.head? ≠ some .equals) :
    keyAt? (.ident name :: rest) = none := by
  unfold keyAt?
  split
  · next heq =>
      obtain ⟨-, rfl⟩ := List.cons.inj heq
      exact absurd rfl h
  · rfl

/-- What starts no pair only counts. -/
theorem keysIn_cons (h : depth = 0 → keyAt? (t :: rest) = none) :
    keysIn depth (t :: rest) = keysIn (t.depthBehind depth) rest := by
  rw [keysIn]
  by_cases hdepth : depth = 0
  · rw [if_pos hdepth, h hdepth]
    rfl
  · rw [if_neg hdepth]
    rfl

theorem keysIn_inside :
    keysIn (depth + 1) (t :: rest) = keysIn (t.depthBehind (depth + 1)) rest :=
  keysIn_cons fun h => absurd h (Nat.succ_ne_zero depth)

/-- A name in front of no `=` is no key. -/
theorem keysIn_ident (name : Text) (h : depth = 0 → rest.head? ≠ some .equals) :
    keysIn depth (.ident name :: rest) = keysIn depth rest :=
  keysIn_cons fun hdepth => keyAt?_ident (h hdepth)

/-! ## What is passed over -/

/-- No key is read off the tokens, unless their last name is one for what follows. -/
def Passes (ts : List Token) : Prop :=
  ∀ depth rest, (depth = 0 → rest.head? ≠ some .equals) →
    keysIn depth (ts ++ rest) = keysIn depth rest

/-- No key is read off the tokens inside of parentheses or brackets. -/
def PassesInside (ts : List Token) : Prop :=
  ∀ depth rest, keysIn (depth + 1) (ts ++ rest) = keysIn (depth + 1) rest

theorem Passes.inside (h : Passes ts) : PassesInside ts :=
  fun depth rest => h (depth + 1) rest nofun

theorem PassesInside.nil : PassesInside [] := fun _ _ => rfl

theorem PassesInside.append (h : PassesInside ts) (h' : PassesInside ts') :
    PassesInside (ts ++ ts') := by
  intro depth rest
  rw [List.append_assoc, h, h']

/-- What stands in parentheses is passed over. -/
theorem PassesInside.parens (h : PassesInside ts) :
    Passes (.parenOpen :: (ts ++ [.parenClose])) := by
  intro depth rest _
  rw [List.cons_append, List.append_assoc, keysIn_cons fun _ => rfl]
  exact (h depth _).trans (keysIn_cons fun _ => rfl)

theorem PassesInside.brackets (h : PassesInside ts) :
    Passes (.arrayOpen :: (ts ++ [.arrayClose])) := by
  intro depth rest _
  rw [List.cons_append, List.append_assoc, keysIn_cons fun _ => rfl]
  exact (h depth _).trans (keysIn_cons fun _ => rfl)

namespace Grammar

theorem head?_tail (h : Derives .tail ts) (hrest : rest.head? ≠ some .equals) :
    (ts ++ rest).head? ≠ some .equals := by
  cases h with
  | tailNil => exact hrest
  | tailCons => nofun

theorem passes_tail (h : Derives .tail ts) : Passes ts := by
  generalize hphrase : Phrase.tail = phrase at h
  induction h with
  | tailNil => exact fun _ _ _ => rfl
  | @tailCons kind name ts h ih =>
      intro depth rest hrest
      have hname := keysIn_ident name fun hdepth => head?_tail h (hrest hdepth)
      exact (keysIn_cons fun _ => rfl).trans (hname.trans (ih hphrase depth rest hrest))
  | _ => cases hphrase

theorem passes_segments (h : Derives .segments ts) : Passes ts := by
  cases h with
  | @segments name ts h =>
      intro depth rest hrest
      have hname := keysIn_ident name fun hdepth => head?_tail h (hrest hdepth)
      exact hname.trans (passes_tail h depth rest hrest)

/-- What is passed over, for a phrase that stands in a tag. -/
def Phrase.Passed : Phrase → List Token → Prop
  | .expr, ts => Passes ts
  | .exprs, ts | .pairs, ts | .call, ts => PassesInside ts
  | _, _ => True

/-- **An expression is passed over**, and what stands in parentheses or brackets is made of
expressions. -/
theorem Derives.passed {phrase : Phrase} (h : Derives phrase ts) : phrase.Passed ts := by
  induction h with
  | path h => exact passes_segments h
  | data h =>
      intro depth rest hrest
      exact (keysIn_cons fun _ => rfl).trans (passes_segments h depth rest hrest)
  | @literal t h =>
      intro depth rest _
      cases t with
      | string | number | boolean | undefined | null => exact keysIn_cons fun _ => rfl
      | _ => cases h
  | hash _ _ ih | sub _ ih => exact ih.parens
  | @subPath kind ts ts' _ hmore ih _ =>
      intro depth rest hrest
      have hsplit : .parenOpen :: (ts ++ .parenClose :: .separator kind :: ts') ++ rest =
          .parenOpen :: (ts ++ [.parenClose]) ++ .separator kind :: (ts' ++ rest) := by simp
      rw [hsplit, ih.parens depth _ fun _ => by simp]
      exact (keysIn_cons fun _ => rfl).trans (passes_segments hmore depth rest hrest)
  | array _ ih => exact ih.brackets
  | exprsNil | pairsNil => exact .nil
  | exprsCons _ _ ihe ih => exact ihe.inside.append ih
  | pairsCons _ _ ihe ih =>
      intro depth rest
      have hvalue := ihe.inside.append ih depth rest
      exact keysIn_inside.trans (keysIn_inside.trans hvalue)
  | call _ _ _ ihe ih ih' => exact ihe.inside.append (ih.append ih')
  | _ => trivial

variable {g : Grammar} {ls : List Lexeme} {pairs : List HashPair}

theorem head?_pairs (h : g.WritesPairs ls pairs) : (tokensOf ls).head? ≠ some .equals := by
  cases h <;> nofun

/-- The keys of some pairs are read off their tokens. -/
theorem keysIn_of_writesPairs (h : g.WritesPairs ls pairs) :
    keysIn 0 (tokensOf ls) = pairs.map HashPair.key := by
  induction pairs generalizing ls with
  | nil =>
      cases h
      rfl
  | cons p pairs ih =>
      cases h with
      | @cons key s s' own more value _ hvalue h =>
          have hpassed : keysIn 0 (tokensOf own ++ tokensOf more) = keysIn 0 (tokensOf more) :=
            (derives_of_writesExpr hvalue).passed 0 _ fun _ => head?_pairs h
          have hequals : keysIn 0 (.equals :: (tokensOf own ++ tokensOf more)) =
              keysIn 0 (tokensOf own ++ tokensOf more) := keysIn_cons fun _ => rfl
          rw [tokensOf_cons, tokensOf_cons, tokensOf_append, keysIn]
          exact congrArg (unbracket key :: ·) (hequals.trans (hpassed.trans (ih h)))

example : keysIn 0 [.ident ['a'], .equals, .parenOpen, .ident ['b'], .ident ['c'], .equals,
    .ident ['d'], .parenClose, .ident ['[', 'e', ']'], .equals, .ident ['f']] = [['a'], ['e']] := by
  decide

/-- A hash literal is written by pairs in parentheses. -/
theorem exists_of_hashLiteral (hg : g.Literal) {loc : Location}
    (h : g.WritesExpr ls (.hash pairs loc)) :
    ∃ s own s', ls = parens s own s' ∧ g.WritesPairs own pairs ∧ loc = g.place ls := by
  generalize he : Expr.hash pairs loc = e at h
  cases h with
  | hash h _ =>
      rw [hashLiteral_of_literal hg] at he
      cases he
      exact ⟨_, _, _, rfl, h, rfl⟩
  | array _ =>
      rw [array_of_literal hg] at he
      cases he
  | path | data | sub | subPath | string | number | boolean | undefined | null => cases he

end Grammar

/-! ## The keys of a tree -/

/-- The tokens give the pairs their keys.  So no key is there twice exactly if no name is. -/
structure KeyedBy (own : List Lexeme) (pairs : List HashPair) : Prop where
  keys : pairs.map HashPair.key = keysIn 0 (Grammar.tokensOf own)
  nodup : (pairs.map HashPair.key).Nodup ↔ (keysIn 0 (Grammar.tokensOf own)).Nodup

/-- Every hash of the tree has the keys that its own tokens give it: the named arguments of a call,
and what is written in parentheses. -/
structure Program.Keyed (o : Options) (text : Text) (p : Program) : Prop where
  named : ∀ hash, (Node.hash hash).Within (.program p) → ∃ own,
    own <:+: (tokenize o.brackets.isList text).lexemes ∧
      hash.loc = (o.grammar text).place own ∧ KeyedBy own hash.pairs
  literal : ∀ pairs loc, (Node.expr (.hash pairs loc)).Within (.program p) → ∃ s own s',
    Grammar.parens s own s' <:+: (tokenize o.brackets.isList text).lexemes ∧
      loc = (o.grammar text).place (Grammar.parens s own s') ∧ KeyedBy own pairs

theorem Grammar.keyedBy_of_writesPairs {g : Grammar} {own : List Lexeme} {pairs : List HashPair}
    (h : g.WritesPairs own pairs) : KeyedBy own pairs := by
  have hkeys := (keysIn_of_writesPairs h).symm
  exact ⟨hkeys, by rw [hkeys]⟩

/-- **The keys of a hash are the names in front of its `=` signs**, without brackets, one for each
sign and in their order.  This is so of every hash of an accepted template, at any depth. -/
theorem keyed_of_parseRaw {o : Options} {text : Text} {p : Program} (ho : o.Literal)
    (h : parseRaw o text = .ok p) : p.Keyed o text := by
  constructor
  · intro hash hhash
    obtain ⟨before, own, after, hlexemes, hown⟩ := exists_of_parseRaw ho h hhash
    cases hown with
    | hash hpairs _ =>
        exact ⟨own, ⟨before, after, by rw [hlexemes, List.append_assoc]⟩, rfl,
          Grammar.keyedBy_of_writesPairs hpairs⟩
  · intro pairs loc hhash
    obtain ⟨before, own, after, hlexemes, hown⟩ := exists_of_parseRaw ho h hhash
    cases hown with
    | expr he =>
        obtain ⟨s, own, s', rfl, hpairs, rfl⟩ :=
          Grammar.exists_of_hashLiteral (ho.grammar text) he
        exact ⟨s, own, s', ⟨before, after, by rw [hlexemes, List.append_assoc]⟩, rfl,
          Grammar.keyedBy_of_writesPairs hpairs⟩

/-- The template `{{f (a=(b c=d) [a]=e) g=h}}`. -/
def nestedKeys : Text := "\x7b\x7bf (a=(b c=d) [a]=e) g=h\x7d\x7d".toList

/-- Its hashes lie in one another and have their own keys each. -/
theorem keyed_nestedKeys :
    Options.Literal {} ∧ ∃ p, parseRaw {} nestedKeys = .ok p ∧ p.Keyed {} nestedKeys := by
  have hliteral : Options.Literal {} := ⟨nofun, nofun⟩
  obtain ⟨p, hp⟩ : ∃ p, parseRaw {} nestedKeys = .ok p := ⟨_, by cbv⟩
  exact ⟨hliteral, p, hp, keyed_of_parseRaw hliteral hp⟩

/-! ## Keys that are there twice -/

/-- The template `{{f (a=b a=c) d=e d=g}}`. -/
def repeatedKeys : Text := "\x7b\x7bf (a=b a=c) d=e d=g\x7d\x7d".toList

/-- A key may be there twice, in the named arguments of a call and in parentheses. -/
theorem keys_repeatedKeys :
    (¬∀ text p hash, parseRaw {} text = .ok p → (Node.hash hash).Within (.program p) →
      (hash.pairs.map HashPair.key).Nodup) ∧
    ¬∀ text p pairs loc, parseRaw {} text = .ok p →
      (Node.expr (.hash pairs loc)).Within (.program p) → (pairs.map HashPair.key).Nodup := by
  obtain ⟨p, node, hash, pairs, loc, hp, hbody, hhash, hparams, hkeys, hkeys'⟩ :
      ∃ p node hash pairs loc, parseRaw {} repeatedKeys = .ok p ∧ p.body = [.mustache node] ∧
        node.call.hash = some hash ∧ node.call.params = [.hash pairs loc] ∧
        hash.pairs.map HashPair.key = [['d'], ['d']] ∧ pairs.map HashPair.key = [['a'], ['a']] :=
    ⟨_, _, _, _, _, by cbv, by rfl, by rfl, by rfl, by rfl, by rfl⟩
  have hnode : Node.statement (.mustache node) ∈ (Node.program p).ordered := by
    simp [Node.ordered, Program.nodes, hbody]
  have hnamed : Node.hash hash ∈ (Node.statement (.mustache node)).ordered := by
    simp [Node.ordered, Call.nodes, hhash]
  have hliteral : Node.expr (.hash pairs loc) ∈ (Node.statement (.mustache node)).ordered := by
    simp [Node.ordered, Call.nodes, hparams]
  constructor
  · intro hall
    have hnodup := hall _ _ _ hp ((Node.Within.of_ordered hnamed).trans (.of_ordered hnode))
    rw [hkeys] at hnodup
    exact absurd hnodup (by decide)
  · intro hall
    have hnodup := hall _ _ _ _ hp ((Node.Within.of_ordered hliteral).trans (.of_ordered hnode))
    rw [hkeys'] at hnodup
    exact absurd hnodup (by decide)

end Stache
