import Stache.Tree.Basic

/-!
# Expressions without places

`Expr.unlocated` puts one and the same place into every node of an expression.  Two expressions
are equal up to places when they agree after that.
-/

namespace Stache

/-- A place that says nothing. -/
def Location.nowhere : Location := ⟨none, .origin, .origin⟩

mutual

/-- The expression without its places. -/
def Expr.unlocated : Expr → Expr
  | .path node => .path node.unlocated
  | .sub node => .sub node.unlocated
  | .string value written _ => .string value written .nowhere
  | .number value written _ => .number value written .nowhere
  | .boolean value written _ => .boolean value written .nowhere
  | .undefined _ => .undefined .nowhere
  | .null _ => .null .nowhere
  | .array items _ => .array (exprsUnlocated items) .nowhere
  | .hash pairs _ => .hash (pairsUnlocated pairs) .nowhere

/-- The head of a path without its places. -/
def PathHead.unlocated : PathHead → PathHead
  | .segment name => .segment name
  | .sub node => .sub node.unlocated

/-- The path without its places. -/
def Path.unlocated : Path → Path
  | ⟨data, fromThis, depth, head, tail, written, _⟩ =>
      ⟨data, fromThis, depth, headUnlocated head, tail, written, .nowhere⟩

/-- The head of a path, if there is one, without its places. -/
def headUnlocated : Option PathHead → Option PathHead
  | none => none
  | some head => some head.unlocated

/-- The call in parentheses without its places. -/
def SubExpr.unlocated : SubExpr → SubExpr
  | ⟨call, written, _⟩ => ⟨call.unlocated, written, .nowhere⟩

/-- The call without its places. -/
def Call.unlocated : Call → Call
  | ⟨head, params, hash⟩ => ⟨head.unlocated, exprsUnlocated params, hashUnlocated hash⟩

/-- The hash, if there is one, without its places. -/
def hashUnlocated : Option Hash → Option Hash
  | none => none
  | some hash => some hash.unlocated

/-- The hash without its places. -/
def Hash.unlocated : Hash → Hash
  | ⟨pairs, _⟩ => ⟨pairsUnlocated pairs, .nowhere⟩

/-- The pair without its places. -/
def HashPair.unlocated : HashPair → HashPair
  | ⟨key, value, _⟩ => ⟨key, value.unlocated, .nowhere⟩

/-- The expressions without their places. -/
def exprsUnlocated : List Expr → List Expr
  | [] => []
  | e :: more => e.unlocated :: exprsUnlocated more

/-- The pairs without their places. -/
def pairsUnlocated : List HashPair → List HashPair
  | [] => []
  | pair :: more => pair.unlocated :: pairsUnlocated more

end

@[simp] theorem SubExpr.written_unlocated : ∀ sub : SubExpr, sub.unlocated.written = sub.written
  | ⟨_, _, _⟩ => rfl

end Stache
