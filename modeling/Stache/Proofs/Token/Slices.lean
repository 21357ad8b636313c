import Stache.Token.Scan

/-!
# What a token carries

`t.Spells w v` says that the token `t` may be read off the slice `w` of a text
that goes on with `v`.  Most tokens that carry text carry the slice itself.  A
string and an identifier in brackets are unescaped, the closer of a raw block
carries only the name in it, and text in front of an escape lacks the backslash
of the escape.

Every reading of a token inside a tag is of this kind (`all_spelled_readToken`).
-/

namespace Stache

/-- The token may be read off the slice `w` of a text that goes on with `v`. -/
def Token.Spells (t : Token) (w v : Text) : Prop :=
  match t with
  | .content t => w = t ∨ w = t ++ ['\\'] ∧ ['{', '{'] <+: v
  | .comment t | .opener _ t | .elseTag t | .closer t | .unescapedCloser t | .number t => w = t
  | .ident t => w = t ∨ ∃ name, w = '[' :: (name ++ [']']) ∧ t = Reading.unescapeBracket w
  | .string value => ∃ quote body, (quote = '\x22' ∨ quote = '\x27') ∧
      w = quote :: (body ++ [quote]) ∧ value = Reading.unescapeQuote quote body
  | .rawEnd name => w = ['{', '{', '{', '{', '/'] ++ (name ++ ['}', '}', '}', '}'])
  | .rawOpener => w = ['{', '{', '{', '{']
  | .rawCloser => w = ['}', '}', '}', '}']
  | .parenOpen => w = ['(']
  | .parenClose => w = [')']
  | .arrayOpen => w = ['[']
  | .arrayClose => w = [']']
  | .paramsOpen => ∃ space, space ≠ [] ∧ space.all isTagSpace = true ∧
      w = ['a', 's'] ++ (space ++ ['|'])
  | .paramsClose => w = ['|']
  | .equals => w = ['=']
  | .data => w = ['@']
  | .separator kind => w = kind.text
  | .boolean true => w = ['t', 'r', 'u', 'e']
  | .boolean false => w = ['f', 'a', 'l', 's', 'e']
  | .undefined => w = ['u', 'n', 'd', 'e', 'f', 'i', 'n', 'e', 'd']
  | .null => w = ['n', 'u', 'l', 'l']

/-- The token stands in a tag, its delimiters included. -/
def Token.ofTag : Token → Bool
  | .content _ | .rawEnd _ => false
  | _ => true

namespace Reading

/-- The reading is of a tag, and of the first characters of a text. -/
def Spelled (cs : Text) : Reading → Prop
  | .token t width => t.ofTag = true ∧ t.Spells (cs.take width) (cs.drop width)
  | _ => True

theorem Symbol.spelled {spelling : Text} {t : Token} (h : Symbol spelling t) (v : Text) :
    t.ofTag = true ∧ t.Spells spelling v := by
  cases h with
  | parent | this => exact ⟨rfl, .inl rfl⟩
  | _ => exact ⟨rfl, rfl⟩

theorem Delimiter.spelled {cs : Text} {x : Reading} (h : Delimiter cs x) : x.Spelled cs := by
  cases h with
  | unterminatedComment => trivial
  | _ => exact ⟨rfl, rfl⟩

theorem Shape.spelled {cs : Text} {x : Reading} (h : Shape cs x) : x.Spelled cs := by
  cases h with
  | delimiter h => exact h.spelled
  | symbol h hstart =>
      rw [Spelled, ← List.prefix_iff_eq_take.mp hstart]
      exact h.spelled _
  | number => exact ⟨rfl, rfl⟩
  | unterminatedString => trivial
  | dot hcs =>
      rw [hcs]
      exact ⟨rfl, rfl⟩
  | @string quote body r hcs hquote =>
      refine ⟨rfl, quote, body, hquote, ?_, rfl⟩
      rw [hcs, List.take_succ_cons, List.take_length_add_append]
      rfl
  | @paramsOpen space r hcs hne hspace =>
      refine ⟨rfl, space, hne, hspace, ?_⟩
      have htake : (space ++ '|' :: r).take (space.length + 1) = space ++ ['|'] :=
        List.take_length_add_append 1
      rw [hcs]
      exact congrArg (['a', 's'] ++ ·) htake
  | ident hcs =>
      rw [hcs, Spelled, List.take_left]
      exact ⟨rfl, .inl rfl⟩
  | @bracketIdent name r hcs =>
      rw [Spelled, hcs, take_bracketed]
      exact ⟨rfl, .inr ⟨name, rfl, rfl⟩⟩

/-- Every token of a tag is read off its slice. -/
theorem all_spelled_readToken (square afterSeparator : Bool) (cs : Text) :
    All (Spelled cs) (readToken square afterSeparator cs) :=
  (shape_readToken square afterSeparator cs).mono Shape.spelled

end Reading
end Stache
