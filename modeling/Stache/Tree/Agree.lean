import Stache.Tree.Basic

/-!
# Agreement of trees

Two trees agree when they are equal in every part, with numbers compared as
numbers: a tree that holds a NaN does not agree with itself.
-/

namespace Stache

mutual

/-- Two expressions agree. -/
def Expr.agrees : Expr → Expr → Bool
  | .path a, .path b => a.agrees b
  | .sub a, .sub b => a.agrees b
  | .string v o l, .string v' o' l' => v == v' && o == o' && l == l'
  | .number v o l, .number v' o' l' => v.agrees v' && o == o' && l == l'
  | .boolean v o l, .boolean v' o' l' => v == v' && o == o' && l == l'
  | .undefined l, .undefined l' => l == l'
  | .null l, .null l' => l == l'
  | .array items l, .array items' l' => exprsAgree items items' && l == l'
  | .hash pairs l, .hash pairs' l' => pairsAgree pairs pairs' && l == l'
  | _, _ => false

/-- Two heads of paths agree. -/
def PathHead.agrees : PathHead → PathHead → Bool
  | .segment a, .segment b => a == b
  | .sub a, .sub b => a.agrees b
  | _, _ => false

/-- Two paths agree. -/
def Path.agrees : Path → Path → Bool
  | ⟨data, this, depth, head, tail, written, loc⟩,
    ⟨data', this', depth', head', tail', written', loc'⟩ =>
      data == data' && this == this' && depth == depth' && headsAgree head head' &&
        tail == tail' && written == written' && loc == loc'

/-- Two optional heads of paths agree. -/
def headsAgree : Option PathHead → Option PathHead → Bool
  | none, none => true
  | some a, some b => a.agrees b
  | _, _ => false

/-- Two calls in parentheses agree. -/
def SubExpr.agrees : SubExpr → SubExpr → Bool
  | ⟨call, written, loc⟩, ⟨call', written', loc'⟩ =>
      call.agrees call' && written == written' && loc == loc'

/-- Two calls agree. -/
def Call.agrees : Call → Call → Bool
  | ⟨head, params, hash⟩, ⟨head', params', hash'⟩ =>
      head.agrees head' && exprsAgree params params' && hashesAgree hash hash'

/-- Two optional hashes agree. -/
def hashesAgree : Option Hash → Option Hash → Bool
  | none, none => true
  | some a, some b => a.agrees b
  | _, _ => false

/-- Two hashes agree. -/
def Hash.agrees : Hash → Hash → Bool
  | ⟨pairs, loc⟩, ⟨pairs', loc'⟩ => pairsAgree pairs pairs' && loc == loc'

/-- Two pairs agree. -/
def HashPair.agrees : HashPair → HashPair → Bool
  | ⟨key, value, loc⟩, ⟨key', value', loc'⟩ => key == key' && value.agrees value' && loc == loc'

/-- Two lists of expressions agree. -/
def exprsAgree : List Expr → List Expr → Bool
  | [], [] => true
  | a :: as, b :: bs => a.agrees b && exprsAgree as bs
  | _, _ => false

/-- Two lists of pairs agree. -/
def pairsAgree : List HashPair → List HashPair → Bool
  | [], [] => true
  | a :: as, b :: bs => a.agrees b && pairsAgree as bs
  | _, _ => false

end

/-- Two mustaches agree. -/
def Mustache.agrees (a b : Mustache) : Bool :=
  a.call.agrees b.call && a.escaped == b.escaped && a.strip == b.strip && a.loc == b.loc

/-- Two partials agree. -/
def Inclusion.agrees (a b : Inclusion) : Bool :=
  a.call.agrees b.call && a.indent == b.indent && a.strip == b.strip && a.loc == b.loc

mutual

/-- Two statements agree. -/
def Statement.agrees : Statement → Statement → Bool
  | .mustache a, .mustache b => a.agrees b
  | .decorator a, .decorator b => a.agrees b
  | .block a, .block b => a.agrees b
  | .decoratorBlock a, .decoratorBlock b => a.agrees b
  | .inclusion a, .inclusion b => a.agrees b
  | .inclusionBlock a, .inclusionBlock b => a.agrees b
  | .content a, .content b => a == b
  | .comment a, .comment b => a == b
  | _, _ => false

/-- Two blocks agree. -/
def Block.agrees : Block → Block → Bool
  | ⟨call, program, inverse, opening, middle, closing, loc⟩,
    ⟨call', program', inverse', opening', middle', closing', loc'⟩ =>
      call.agrees call' && sectionsAgree program program' && sectionsAgree inverse inverse' &&
        opening == opening' && middle == middle' && closing == closing' && loc == loc'

/-- Two partials with a body agree. -/
def InclusionBlock.agrees : InclusionBlock → InclusionBlock → Bool
  | ⟨call, program, opening, closing, loc⟩, ⟨call', program', opening', closing', loc'⟩ =>
      call.agrees call' && program.agrees program' && opening == opening' &&
        closing == closing' && loc == loc'

/-- Two optional sections of a block agree. -/
def sectionsAgree : Option Program → Option Program → Bool
  | none, none => true
  | some a, some b => a.agrees b
  | _, _ => false

/-- Two programs agree. -/
def Program.agrees : Program → Program → Bool
  | ⟨body, params, chained, loc⟩, ⟨body', params', chained', loc'⟩ =>
      statementsAgree body body' && params == params' && chained == chained' && loc == loc'

/-- Two lists of statements agree. -/
def statementsAgree : List Statement → List Statement → Bool
  | [], [] => true
  | a :: as, b :: bs => a.agrees b && statementsAgree as bs
  | _, _ => false

end

end Stache
