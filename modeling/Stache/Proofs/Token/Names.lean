import Stache.Proofs.Token.Row
import Stache.Token.Shapes

/-!
# Identifiers

An identifier is `..`, a `.` of its own, a run of characters without any delimiter, or it
stands in brackets.  A `.` that separates two segments has no dot and no space behind it, or it
would have been read as an identifier (`named_readToken`).
-/

namespace Stache

/-- The spelling of an identifier that has no brackets. -/
def Text.IsBare (t : Text) : Prop :=
  t = ['.'] ∨ t = ['.', '.'] ∨ t ≠ [] ∧ ∀ c ∈ t, Reading.isIdent c = true

/-- The spelling of an identifier in brackets. -/
def Text.IsBracketed (t : Text) : Prop := ∃ name, t = '[' :: (name ++ [']'])

/-- If the token is an identifier, it is spelled as one. -/
def Token.Named : Token → Prop
  | .ident t => t.IsBare ∨ t.IsBracketed
  | _ => True

namespace Reading

/-! ## Delimiters of tags -/

/-- The reading is of no token inside a tag. -/
def IsOuter : Reading → Prop
  | .token t _ => t.isInner = false
  | _ => True

theorem Delimiter.outer {cs : Text} {x : Reading} (h : Delimiter cs x) : x.IsOuter := by
  cases h <;> trivial

/-! ## Identifiers -/

/-- If the text starts with an identifier, it is spelled as one, and a `.` that separates two
segments has no dot and no space behind it. -/
def Named (cs : Text) : Reading → Prop
  | .token (.separator .dot) width =>
      ∃ c r, cs.drop width = c :: r ∧ isSpace c = false ∧ c ≠ '.'
  | .token t _ => t.Named
  | _ => True

variable {cs : Text}

theorem IsOuter.named {x : Reading} (h : IsOuter x) : Named cs x := by
  cases x with
  | token t width => cases t <;> trivial
  | _ => trivial

/-- The closing bracket stays where it is. -/
theorem getLast?_unescapeBracket {t : Text} (h : t.getLast? = some ']') :
    (unescapeBracket t).getLast? = some ']' := by
  fun_induction unescapeBracket t with
  | case1 => cases h
  | case2 r ih | case3 r ih | case4 c r _ _ ih =>
      cases r with
      | nil => simp_all [unescapeBracket]
      | cons d r =>
          rw [List.getLast?_cons, ih (by simpa using h)]
          rfl

theorem Symbol.named {spelling : Text} {t : Token} (h : Symbol spelling t) (width : Nat) :
    Named cs (.token t width) := by
  cases h with
  | parent => exact .inl (.inr (.inl rfl))
  | this => exact .inl (.inl rfl)
  | _ => trivial

theorem Shape.named {x : Reading} (h : Shape cs x) : x.Named cs := by
  cases h with
  | delimiter h => exact h.outer.named
  | symbol h => exact h.named _
  | @dot r hcs hdot hnext =>
      subst hcs
      cases r with
      | nil => cases hnext
      | cons c r =>
          simp only [boundary, Bool.or_eq_false_iff] at hnext
          exact ⟨c, r, rfl, hnext.1.1, fun hc => hdot (congrArg some hc)⟩
  | ident _ hne hname => exact .inl (.inr (.inr ⟨hne, List.all_eq_true.mp hname⟩))
  | @bracketIdent name r =>
      have hlast : (unescapeBracket (name ++ [']'])).getLast? = some ']' :=
        getLast?_unescapeBracket List.getLast?_concat
      obtain ⟨name', hname'⟩ := List.getLast?_eq_some_iff.mp hlast
      exact .inr ⟨name', congrArg (List.cons '[') hname'⟩
  | string | unterminatedString | number | paramsOpen => trivial

theorem named_readToken (square afterSeparator : Bool) :
    All (Named cs) (readToken square afterSeparator cs) :=
  (shape_readToken square afterSeparator cs).mono Shape.named

end Reading
end Stache
