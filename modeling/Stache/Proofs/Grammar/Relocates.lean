import Stache.Grammar.Statement
import Stache.Proofs.Tree.Relocated

/-!
# Two builders that differ in places

Two builders *relocate* when the nodes of the second are those of the first with
other places: a function `f` takes each place of the first builder to the place
that the second one makes instead.  Every node of a template is then relocated,
and so is the error where the builder refuses one, since no builder reads a
place.

Two grammars with such builders read the same tokens alike.  `Relocated` relates
the results of a production: the same cursor, and the value relocated, or the
same refusal with relocated places.  Where the two builders may make different
things of a list, no list may begin in the tokens that are left
(`Cursor.Allows`).
-/

namespace Stache

variable {f : Location → Location} {lists : Prop}

/-! ## Builders -/

/-- The nodes of the second builder are those of the first with other places.
Lists are asked for only if there are `lists`. -/
structure Builder.Relocates (f : Location → Location) (lists : Prop) (b b' : Builder) : Prop where
  locate : ∀ x, b'.locate x = f (b.locate x)
  through : ∀ a c : Location, f (a.through c) = (f a).through (f c)
  hashLiteral : ∀ hash x,
    b'.hashLiteral (hash.relocated f) x = (b.hashLiteral hash x).relocated f
  array : lists → ∀ items x,
    b'.array (exprsRelocated f items) x = (b.array items x).relocated f

/-- The opening tag with other places. -/
def BlockOpening.relocated (f : Location → Location) (head : BlockOpening) : BlockOpening :=
  { head with call := head.call.relocated f }

/-- The closing tag with other places. -/
def BlockClosing.relocated (f : Location → Location) (tail : BlockClosing) : BlockClosing :=
  { tail with path := tail.path.map (Expr.relocated f) }

/-- The else section with other places. -/
def ElseSection.relocated (f : Location → Location) (s : ElseSection) : ElseSection :=
  { s with program := s.program.relocated f }

namespace Builder

/-- What a builder makes, or its error, with other places. -/
def relocate {α : Type} (f : Location → Location) (val : α → α) :
    Except BuildError α → Except BuildError α
  | .ok a => .ok (val a)
  | .error e => .error (e.relocated f)

/-- What is built in two steps is relocated step by step. -/
theorem relocate_bind {α β : Type} {val : α → α} {val' : β → β} {m m' : Except BuildError α}
    {next next' : α → Except BuildError β} (hm : m' = relocate f val m)
    (hnext : ∀ a, next' (val a) = relocate f val' (next a)) :
    m' >>= next' = relocate f val' (m >>= next) := by
  subst hm
  cases m with
  | ok a => exact hnext a
  | error e => rfl

/-! ## Programs -/

/-- The last statement of a relocated list has the relocated place. -/
theorem getLast_map_loc (f : Location → Location) (body : List Statement) (h : body ≠ []) :
    ((Body.relocated f body).getLast (by simpa [Body.relocated_eq_map] using h)).loc =
      f (body.getLast h).loc := by
  simp only [Body.relocated_eq_map, List.getLast_map, Statement.loc_relocated]

/-- A program reaches from its first statement to its last one, wherever these stand. -/
theorem relocated_program (hthrough : ∀ a c : Location, f (a.through c) = (f a).through (f c))
    (body : List Statement) :
    program (Body.relocated f body) none = (program body none).relocated f := by
  cases body with
  | nil => rfl
  | cons s rest =>
      cases rest with
      | nil =>
          show Program.mk _ _ _ (some (s.relocated f).loc) = Program.mk _ _ _ (some (f s.loc))
          rw [s.loc_relocated]
      | cons t rest =>
          show Program.mk _ _ _ (some ((s.relocated f).loc.through
            ((Body.relocated f (t :: rest)).getLast _).loc)) = Program.mk _ _ _ (some (f _))
          rw [getLast_map_loc f (t :: rest) (by simp), hthrough, s.loc_relocated]

/-- A link reaches as far as its block, wherever that stands. -/
theorem relocated_chainedProgram
    (hthrough : ∀ a c : Location, f (a.through c) = (f a).through (f c)) (block : Statement)
    (loc : Option Location) :
    chainedProgram (block.relocated f) (loc.map f) = (chainedProgram block loc).relocated f := by
  cases loc with
  | none =>
      show { program (Body.relocated f [block]) none with chained := true } = _
      rw [relocated_program hthrough]
      rfl
  | some loc => rfl

/-! ## Checks -/

/-- The names of the tags of a block are compared without their places. -/
theorem checkClose_relocated (opened : Expr) {closed closed' : Option Text}
    {closedAt closedAt' : Option Location} (hclosed : closed' = closed)
    (hat : closedAt' = closedAt.map f) :
    checkClose (opened.relocated f) closed' closedAt' =
      relocate f id (checkClose opened closed closedAt) := by
  subst hclosed hat
  cases opened with
  | path node =>
      obtain ⟨data, fromThis, depth, head, tail, written, loc⟩ := node
      show checkClose (.path ⟨data, fromThis, depth, headRelocated f head, tail, written, f loc⟩)
        closed' (closedAt.map f) = _
      rw [checkClose, checkClose]
      dsimp only
      split <;> rfl
  | sub node => cases node; rfl
  | _ => rfl

/-- The first link of a chain is closed at any place. -/
theorem closeChain_relocated (p : Program) (closing : Strip) :
    closeChain (p.relocated f) closing = (closeChain p closing).map (Program.relocated f) := by
  obtain ⟨body, names, chained, loc⟩ := p
  match body with
  | .block ⟨_, _, _, _, _, _, _⟩ :: _ => rfl
  | [] | .mustache _ :: _ | .decorator _ :: _ | .inclusion _ :: _ | .content _ :: _
  | .comment _ :: _ | .decoratorBlock _ :: _ | .inclusionBlock _ :: _ => rfl

/-- The else section of a block is relocated with it, or refused at the relocated place. -/
theorem inverseProgram_relocated (decorator : Bool) (closing : Strip) (loc : Location)
    (other : Option ElseSection) :
    inverseProgram decorator closing (f loc) (other.map (ElseSection.relocated f)) =
      relocate f (Section.relocated f) (inverseProgram decorator closing loc other) := by
  cases other with
  | none => rfl
  | some s =>
      obtain ⟨strip, p, chained⟩ := s
      cases decorator with
      | true => rfl
      | false =>
          cases chained with
          | false => rfl
          | true =>
              show inverseProgram false closing (f loc) (some ⟨strip, p.relocated f, true⟩) = _
              simp only [inverseProgram, closeChain_relocated, Bool.false_eq_true, ↓reduceIte]
              cases closeChain p closing <;> rfl

namespace Relocates

variable {b b' : Builder} (h : b.Relocates f lists b')

include h

/-! ## Expressions -/

/-- A call in parentheses is relocated and keeps its spelling. -/
theorem subExpr (call : Call) (written : Text) (x : Extent) :
    b'.subExpr (call.relocated f) written x = (b.subExpr call written x).relocated f := by
  rw [Builder.subExpr, h.locate]
  rfl

theorem string (value : Text) (x : Extent) :
    b'.string value x = (b.string value x).relocated f := by
  rw [Builder.string, h.locate]
  rfl

theorem number (text : Text) (x : Extent) :
    b'.number text x = (b.number text x).relocated f := by
  rw [Builder.number, h.locate]
  rfl

theorem boolean (value : Bool) (x : Extent) :
    b'.boolean value x = (b.boolean value x).relocated f := by
  rw [Builder.boolean, h.locate]
  rfl

theorem undefined (x : Extent) : b'.undefined x = (b.undefined x).relocated f := by
  rw [Builder.undefined, h.locate]
  rfl

theorem null (x : Extent) : b'.null x = (b.null x).relocated f := by
  rw [Builder.null, h.locate]
  rfl

/-- A path is relocated, or refused at the relocated place. -/
theorem path (data : Bool) (head : Option SubExpr) (segments : List Segment) (x : Extent) :
    b'.path data (head.map (SubExpr.relocated f)) segments x =
      relocate f (Path.relocated f) (b.path data head segments x) := by
  have hwritten (sub : SubExpr) : (sub.relocated f).written = sub.written := by
    cases sub
    rfl
  cases head with
  | none =>
      rw [Option.map_none, Builder.path.eq_def, Builder.path.eq_def, h.locate]
      dsimp only
      split
      · rfl
      · next p _ =>
          obtain ⟨written, names, depth⟩ := p
          cases names <;> rfl
  | some sub =>
      rw [Option.map_some, Builder.path.eq_def, Builder.path.eq_def, h.locate]
      dsimp only
      rw [hwritten]
      split <;> rfl

/-! ## Statements -/

theorem content (text : Text) (x : Extent) :
    b'.content text x = (b.content text x).relocated f := by
  rw [Builder.content, h.locate]
  rfl

theorem comment (text : Text) (x : Extent) :
    b'.comment text x = (b.comment text x).relocated f := by
  rw [Builder.comment, h.locate]
  rfl

/-- A mustache is escaped by its delimiter at any place. -/
theorem mustache (opener : Text) (call : Call) (strip : Strip) (x : Extent) :
    b'.mustache opener (call.relocated f) strip x =
      (b.mustache opener call strip x).relocated f := by
  rw [Builder.mustache, Builder.mustache, h.locate]
  split <;> rfl

/-- A partial is relocated. -/
theorem inclusion (call : Call) (strip : Strip) (x : Extent) :
    b'.inclusion (call.relocated f) strip x = (b.inclusion call strip x).relocated f := by
  rw [Builder.inclusion, h.locate]
  rfl

/-- A raw block is relocated, or refused at the relocated place. -/
theorem rawBlock (call : Call) (body : List Statement) (close : Text) (x : Extent) :
    b'.rawBlock (call.relocated f) (Body.relocated f body) close x =
      relocate f (Statement.relocated f) (b.rawBlock call body close x) := by
  obtain ⟨head, params, hash⟩ := call
  refine relocate_bind (checkClose_relocated head rfl rfl) fun _ => ?_
  rw [h.locate]
  rfl

/-- A partial block is relocated, or refused at the relocated place. -/
theorem inclusionBlock (head : BlockOpening) (p : Program) (tail : BlockClosing) (x : Extent) :
    b'.inclusionBlock (head.relocated f) (p.relocated f) (tail.relocated f) x =
      relocate f (Statement.relocated f) (b.inclusionBlock head p tail x) := by
  obtain ⟨opener, ⟨called, params, hash⟩, names, strip⟩ := head
  have hclosed : (tail.path.map (Expr.relocated f)).bind Expr.written? =
      tail.path.bind Expr.written? := by
    cases tail.path with
    | none => rfl
    | some name => exact name.written?_relocated f
  refine relocate_bind (checkClose_relocated called hclosed rfl) fun _ => ?_
  rw [h.locate]
  rfl

/-- A block is relocated, or refused at the relocated place. A closing tag without a name
closes with its markers only, like no tag at all. -/
theorem block (head : BlockOpening) (p : Program) (other : Option ElseSection)
    (tail : Option BlockClosing) (inverted : Bool) (x : Extent) :
    b'.block (head.relocated f) (p.relocated f) (other.map (ElseSection.relocated f))
        (tail.map (BlockClosing.relocated f)) inverted x =
      relocate f (Statement.relocated f) (b.block head p other tail inverted x) := by
  obtain ⟨opener, ⟨called, params, hash⟩, names, strip⟩ := head
  obtain ⟨body, blockParams, chained, loc⟩ := p
  have hmiddle : ((other.map (ElseSection.relocated f)).map ElseSection.strip).getD {} =
      (other.map ElseSection.strip).getD {} := by
    cases other <;> rfl
  rw [Builder.block, Builder.block, h.locate, hmiddle]
  dsimp only [BlockOpening.relocated]
  generalize List.contains opener '*' = decorator
  rcases tail with _ | ⟨_ | name, closing⟩
  · refine relocate_bind (inverseProgram_relocated _ _ _ other) fun inverse => ?_
    cases inverted <;> cases decorator <;> rfl
  · refine relocate_bind (inverseProgram_relocated _ _ _ other) fun inverse => ?_
    cases inverted <;> cases decorator <;> rfl
  · refine relocate_bind (checkClose_relocated called (name.written?_relocated f)
      (congrArg some (name.loc_relocated f))) fun _ => ?_
    refine relocate_bind (inverseProgram_relocated _ _ _ other) fun inverse => ?_
    cases inverted <;> cases decorator <;> rfl

end Relocates

end Builder

/-! ## Refusals -/

/-- The refusal with other places.  What the tokens miss is told in bytes. -/
def Refusal.relocated (f : Location → Location) : Refusal → Refusal
  | .rejected e => .rejected (e.relocated f)
  | .mismatch expected since found => .mismatch expected since found

/-- The report of a relocated refusal is the relocated report. -/
theorem Refusal.diagnostic_relocated {text : Text} {source source' : Option String}
    (hplace : ∀ s, Source.location text source' s = f (Source.location text source s))
    (r : Refusal) (lexemes : List Lexeme) :
    (r.relocated f).diagnostic text source' lexemes =
      (r.diagnostic text source lexemes).relocated f := by
  match r with
  | .rejected e => exact e.diagnostic_relocated f
  | .mismatch expected since (some found) =>
      rw [relocated, diagnostic, hplace]
      rfl
  | .mismatch expected _ none =>
      rw [relocated, diagnostic, hplace]
      rfl

/-! ## Cursors -/

/-- If a token that is left begins a list, there may be `lists`. -/
def Cursor.Allows (lists : Prop) (c : Cursor) : Prop := ∀ l ∈ c.rest, l.token = .arrayOpen → lists

namespace Grammar

/-- The builder of the second grammar relocates, and the text is the same. -/
structure Relocates (f : Location → Location) (lists : Prop) (g g' : Grammar) : Prop where
  text : g'.text = g.text
  builder : g.builder.Relocates f lists g'.builder

/-- Two results of a production: the same cursor and the value relocated by `val`, or the same
refusal with other places. -/
inductive Relocated {α : Type} {n : Nat} (f : Location → Location) (lists : Prop) (val : α → α) :
    Except Refusal (Parsed α n) → Except Refusal (Parsed α n) → Prop where
  | ok {p p' : Parsed α n} (value : p'.value = val p.value) (cursor : p'.cursor = p.cursor)
      (allows : p.cursor.Allows lists) : Relocated f lists val (.ok p) (.ok p')
  | error (r : Refusal) : Relocated f lists val (.error r) (.error (r.relocated f))

namespace Relocates

variable {g g' : Grammar} (h : Relocates f lists g g')

include h

/-- A phrase has the same extent in both grammars. -/
theorem extent (start : Nat) (c : Cursor) : g'.extent start c = g.extent start c := by
  rw [Grammar.extent, Grammar.extent, h.text]

/-- The second grammar places a phrase where the function takes it. -/
theorem locate (start : Nat) (c : Cursor) : g'.locate start c = f (g.locate start c) := by
  rw [Grammar.locate, h.extent, h.builder.locate]
  rfl

/-- Named arguments are relocated with their phrase. -/
theorem hashOf (start : Nat) (c : Cursor) (pairs : List HashPair) :
    g'.hashOf start c (pairsRelocated f pairs) = hashRelocated f (g.hashOf start c pairs) := by
  cases pairs with
  | nil => rfl
  | cons pair more =>
      rw [pairsRelocated, Grammar.hashOf, Grammar.hashOf, h.locate]
      · rfl
      · exact nofun
      · exact nofun

theorem location (s : Span) :
    Source.location g.text g'.builder.source s =
      f (Source.location g.text g.builder.source s) :=
  h.builder.locate (Source.extent g.text s)

end Relocates

/-! ## Results -/

namespace Relocated

variable {α β : Type} {n k : Nat} {val : α → α} {val' : β → β}
  {x x' : Except Refusal (Parsed α n)}

/-- A production is relocated part by part. -/
theorem bind {next next' : Parsed α n → Except Refusal (Parsed β k)}
    (h : Relocated f lists val x x')
    (hnext : ∀ a (c : Cursor) (hc : c.rest.length < n), c.Allows lists →
      Relocated f lists val' (next ⟨a, c, hc⟩) (next' ⟨val a, c, hc⟩)) :
    Relocated f lists val' (x >>= next) (x' >>= next') := by
  cases h with
  | @ok p p' value cursor allows =>
      obtain ⟨a, c, hc⟩ := p
      obtain ⟨a', c', hc'⟩ := p'
      cases value
      cases cursor
      exact hnext a c hc allows
  | error r => exact .error r

/-- Both builders make a node, or both refuse it. -/
theorem lift {γ : Type} {make : γ → γ} {m m' : Except BuildError γ}
    {next next' : γ → Except Refusal (Parsed β k)} (h : m' = Builder.relocate f make m)
    (hnext : ∀ a, Relocated f lists val' (next a) (next' (make a))) :
    Relocated f lists val' (Refusal.lift m >>= next) (Refusal.lift m' >>= next') := by
  subst h
  cases m with
  | ok a => exact hnext a
  | error e => exact .error (.rejected e)

/-- A commitment does not depend on places. -/
theorem commit (c : Cursor) (h : Relocated f lists val x x') :
    Relocated f lists val (c.commit x) (c.commit x') := by
  cases h with
  | ok value cursor allows => exact .ok value cursor allows
  | error r =>
      match r with
      | .rejected e => exact .error (.rejected e)
      | .mismatch expected none found => exact .error (.mismatch expected c.here? found)
      | .mismatch expected (some since) found =>
          exact .error (.mismatch expected (some since) found)

/-- A token that does not fit is refused in both grammars. -/
theorem refuse (c : Cursor) (expected : Expected) :
    Relocated (n := n) f lists val (c.refuse expected) (c.refuse expected) :=
  .error (.mismatch expected none c.here?)

end Relocated

/-- Past a token the rest is still allowed. -/
theorem allows_next {c c₁ : Cursor} {l : Lexeme} {h₁ : c₁.rest.length < c.rest.length}
    (hc : c.Allows lists) (hnext : c.next? = some ⟨l, c₁, h₁⟩) : c₁.Allows lists := by
  obtain ⟨last, rest⟩ := c
  cases rest with
  | nil => cases hnext
  | cons first rest =>
      cases hnext
      exact fun l hl => hc l (List.mem_cons_of_mem _ hl)

/-- Where a list begins, lists are allowed. -/
theorem lists_of_next {c c₁ : Cursor} {l : Lexeme} {h₁ : c₁.rest.length < c.rest.length}
    (hc : c.Allows lists) (hnext : c.next? = some ⟨l, c₁, h₁⟩) (hl : l.token = .arrayOpen) :
    lists := by
  obtain ⟨last, rest⟩ := c
  cases rest with
  | nil => cases hnext
  | cons first rest =>
      cases hnext
      exact hc l List.mem_cons_self hl

/-- A token holds no place. -/
theorem relocated_expect {α : Type} {c : Cursor} (hc : c.Allows lists) (expected : Expected)
    (pick : Token → Option α) :
    Relocated f lists id (c.expect expected pick) (c.expect expected pick) := by
  rw [Cursor.expect]
  cases hnext : c.next? with
  | none => exact .refuse c expected
  | some p =>
      obtain ⟨l, c₁, h₁⟩ := p
      dsimp only
      cases pick l.token with
      | none => exact .refuse c expected
      | some a => exact .ok rfl rfl (allows_next hc hnext)

end Grammar
end Stache
