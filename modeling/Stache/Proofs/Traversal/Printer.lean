import Mathlib
import Stache.Parse
import Stache.Proofs.Tree.Visible
import Stache.Traversal.Printer

/-!
# The printer renders

The printer prints of each node what rendering makes of it, wherever it comes to
the node.  An expression adds its text to the buffer for expressions and a
statement its lines, at the current level, to the other one.  All else that the
printer holds is as before, and so is the stack of nodes around.

Three kinds of pieces follow from each other.  A piece that *gives* a text
leaves the printer alone.  One that *writes* a text adds it to the expression,
and captured it gives it.  One that *prints* adds lines.
-/

namespace Stache
namespace Printing

/-! ## Pieces that end well -/

/-- From a printer, a piece of printing ends with a result and a printer, and
leaves the stack as it found it. -/
def Leads {α : Type} (m : Printing α) (p : Printer) (a : α) (p' : Printer) : Prop :=
  ∀ stack : List Frame, ∃ visits, m p stack = ⟨(a, p'), visits, stack⟩

/-- A piece that finds a result and changes nothing. -/
def Gives {α : Type} (m : Printing α) (a : α) : Prop := ∀ p, Leads m p a p

/-- A piece that adds a text to the current expression and changes nothing
else. -/
def Writes (m : Printing Unit) (text : String) : Prop :=
  ∀ p, Leads m p () { p with inline := p.inline ++ text }

/-- A piece that adds lines for the current level and changes nothing else. -/
def Prints (m : Printing Unit) (lines : Nat → String) : Prop :=
  ∀ p, Leads m p () { p with out := p.out ++ lines p.padding }

namespace Leads

variable {α β : Type} {p p' p'' : Printer}

theorem pure (a : α) (p : Printer) : Leads (Pure.pure a) p a p := fun _ => ⟨[], rfl⟩

theorem get (p : Printer) : Leads (MonadState.get : Printing Printer) p p p := fun _ => ⟨[], rfl⟩

theorem change (f : Printer → Printer) (p : Printer) :
    Leads (modify f : Printing Unit) p () (f p) := fun _ => ⟨[], rfl⟩

/-- One piece leads on from where the other ended. -/
theorem bind {m : Printing α} {next : α → Printing β} {a : α} {b : β} (hm : Leads m p a p')
    (hnext : Leads (next a) p' b p'') : Leads (m >>= next) p b p'' := by
  intro stack
  obtain ⟨visits, h⟩ := hm stack
  obtain ⟨visits', h'⟩ := hnext stack
  refine ⟨visits ++ visits', ?_⟩
  show Walk.andThen (m p) (fun r => next r.1 r.2) stack = _
  rw [Walk.andThen, h]
  show Walked.mk (next a p' stack).value (visits ++ (next a p' stack).visits)
    (next a p' stack).stack = _
  rw [h']

/-- A piece inside a node leads where it leads outside. -/
theorem within {m : Printing α} {a : α} (node : Node) (h : Leads m p a p') :
    Leads (Printing.within node m) p a p' := by
  intro stack
  obtain ⟨visits, h⟩ := h (node.frame :: stack)
  refine ⟨⟨node, stack⟩ :: visits, ?_⟩
  show Walk.visit node (m p) stack = _
  rw [Walk.visit_apply, h]
  rfl

end Leads

/-! ## The three kinds -/

section

variable {α : Type} {m : Printing α} {a : α}

theorem Gives.pure (a : α) : Gives (Pure.pure a) a := Leads.pure a

/-- What a piece gives can be gone on with. -/
theorem Gives.bind {β : Type} {next : α → Printing β} {b : β} (hm : Gives m a)
    (hnext : Gives (next a) b) : Gives (m >>= next) b := fun p => (hm p).bind (hnext p)

/-- A piece that gives something may stand in front of one that writes. -/
theorem Writes.after {next : α → Printing Unit} {text : String} (hm : Gives m a)
    (hnext : Writes (next a) text) : Writes (m >>= next) text := fun p => (hm p).bind (hnext p)

/-- A piece that gives something may stand in front of one that prints. -/
theorem Prints.after {next : α → Printing Unit} {lines : Nat → String} (hm : Gives m a)
    (hnext : Prints (next a) lines) : Prints (m >>= next) lines := fun p => (hm p).bind (hnext p)

end

section

variable {m m' : Printing Unit} {text : String} {lines lines' : Nat → String}

theorem Writes.write (text : String) : Writes (Printing.write text) text := Leads.change _

/-- A piece writes the same inside a node. -/
theorem Writes.within (node : Node) (h : Writes m text) : Writes (Printing.within node m) text :=
  fun p => (h p).within node

/-- What a captured piece writes does not reach the buffer around it. -/
theorem Writes.capture (h : Writes m text) : Gives (Printing.capture m) text := by
  intro p
  have hends : Leads (Printing.capture m) p ("" ++ text) p :=
    .bind (.get p) (.bind (.change _ p) (.bind (h _) (.bind (.get _)
      (.bind (.change _ _) (.pure _ _)))))
  rwa [String.empty_append] at hends

theorem leads_padded (text : String) (p : Printer) :
    Leads (padded text) p (Render.line p.padding text) p :=
  .bind (.get p) (.pure _ p)

theorem Prints.pad (text : String) : Prints (Printing.pad text) (Render.line · text) := fun p =>
  (leads_padded text p).bind (.change _ p)

theorem Prints.none : Prints (Pure.pure ()) fun _ => "" := by
  intro p
  have hends : Leads (Pure.pure ()) p () p := .pure () p
  rwa [String.append_empty]

/-- Two pieces one after the other print their lines one after the other. -/
theorem Prints.append (h : Prints m lines) (h' : Prints m' lines') :
    Prints (m >>= fun _ => m') fun level => lines level ++ lines' level := by
  intro p
  have hends : Leads (m >>= fun _ => m') p () _ := (h p).bind (h' _)
  rwa [String.append_assoc] at hends

/-- A piece prints the same inside a node. -/
theorem Prints.within (node : Node) (h : Prints m lines) :
    Prints (Printing.within node m) lines := fun p => (h p).within node

/-- One level deeper the lines start further to the right. -/
theorem Prints.deeper (h : Prints m lines) :
    Prints (Printing.deeper m) fun level => lines (level + 1) := fun p =>
  .bind (.change _ p) (.bind (h _) (.change _ _))

/-- Lines that are set aside do not reach the buffer around them. -/
theorem Prints.aside (h : Prints m lines) (p : Printer) :
    Leads (Printing.aside m) p (lines p.padding) p := by
  have hends : Leads (Printing.aside m) p ("" ++ lines p.padding) p :=
    .bind (.get p) (.bind (.change _ p) (.bind (h _) (.bind (.get _)
      (.bind (.change _ _) (.pure _ _)))))
  rwa [String.empty_append] at hends

end

/-! ## Expressions -/

mutual

/-- An expression is written as it is rendered. -/
theorem writes_expr : ∀ e : Expr, Writes (expr e) (Render.expr e)
  | .path node => by
      rw [expr, Render.expr]
      exact .within _ (writes_path node)
  | .sub node => by
      rw [expr, Render.expr]
      exact .within _ (.after (gives_subExpr node) (.write _))
  | .string _ _ _ | .number _ _ _ | .boolean _ _ _ | .undefined _ | .null _ => by
      rw [expr, Render.expr]
      exact .within _ (.write _)
  | .array items _ => by
      rw [expr, Render.expr]
      exact .within _ (.after (gives_exprs items) (.write _))
  | .hash list _ => by
      rw [expr, Render.expr]
      exact .within _ (.after (gives_pairs list) (.write _))

/-- A path writes its text. -/
theorem writes_path : ∀ p : Path, Writes (path p) (Render.path p)
  | ⟨_, _, _, head, _, _, _⟩ => by
      rw [path, Render.path]
      exact .after (gives_pathHead head) (.write _)

/-- The head of a path is its first name, or a call in parentheses. -/
theorem gives_pathHead : ∀ head : Option PathHead, Gives (pathHead head) (Render.pathHead head)
  | none => .pure _
  | some head => gives_headText head

theorem gives_headText : ∀ head : PathHead, Gives (headText head) (Render.headText head)
  | .segment _ => .pure _
  | .sub node => by
      rw [headText, Render.headText]
      exact .bind (gives_subExpr node) (.pure _)

/-- A call in parentheses is printed like one without them. -/
theorem gives_subExpr : ∀ node : SubExpr, Gives (subExpr node) (Render.subExpr node)
  | ⟨node, _, _⟩ => gives_call node

/-- The text of a call is given part by part. -/
theorem gives_call : ∀ c : Call, Gives (call c) (Render.call c)
  | ⟨head, params, named⟩ => by
      rw [call, Render.call]
      exact .bind (writes_expr head).capture (.bind (gives_exprs params)
        (.bind (gives_hash? named) (.pure _)))

theorem gives_hash? : ∀ named : Option Hash, Gives (hash? named) (Render.hash? named)
  | none => .pure _
  | some named => by
      rw [hash?, Render.hash?]
      exact .bind (writes_hash named).capture (.pure _)

/-- A hash is written as it is rendered. -/
theorem writes_hash : ∀ named : Hash, Writes (hash named) (Render.hash named)
  | ⟨list, _⟩ => by
      rw [hash, Render.hash]
      exact .within _ (.after (gives_pairs list) (.write _))

/-- A pair is written as it is rendered. -/
theorem writes_pair : ∀ p : HashPair, Writes (pair p) (Render.pair p)
  | ⟨_, value, _⟩ => by
      rw [pair, Render.pair]
      exact .within _ (.after (writes_expr value).capture (.write _))

/-- Arguments are captured one by one. -/
theorem gives_exprs : ∀ list : List Expr, Gives (exprs list) (Render.exprs list)
  | [] => by
      rw [exprs, Render.exprs]
      exact .pure _
  | e :: rest => by
      rw [exprs, Render.exprs]
      exact .bind (writes_expr e).capture (.bind (gives_exprs rest) (.pure _))

/-- Named arguments are captured one by one. -/
theorem gives_pairs : ∀ list : List HashPair, Gives (pairs list) (Render.pairs list)
  | [] => by
      rw [pairs, Render.pairs]
      exact .pure _
  | p :: rest => by
      rw [pairs, Render.pairs]
      exact .bind (writes_pair p).capture (.bind (gives_pairs rest) (.pure _))

end

theorem gives_firstParam (params : List Expr) :
    Gives (firstParam params)
      (match params.head? with
        | some e => " " ++ Render.expr e
        | none => "") := by
  cases params with
  | nil => exact .pure _
  | cons e _ => exact .bind (writes_expr e).capture (.pure _)

/-- The name of a partial is printed as it is spelled. -/
theorem gives_inclusionHead (c : Call) : Gives (inclusionHead c) (Render.inclusionHead c) :=
  .bind (gives_firstParam c.params) (.bind (gives_hash? c.hash) (.pure _))

/-- Block parameters have a line of their own. -/
theorem prints_blockParams (names : Option (List Text)) :
    Prints (blockParams names) (Render.blockParams · names) := by
  cases names with
  | none => exact .none
  | some names => exact .pad _

/-! ## Statements -/

mutual

/-- A statement is printed as it is rendered. -/
theorem prints_statement : ∀ s : Statement, Prints (statement s) (Render.statement · s)
  | .mustache node | .decorator node => by
      rw [statement]
      simp only [Render.statement]
      exact .within _ (.after (gives_call node.call) (.pad _))
  | .block node | .decoratorBlock node => by
      rw [statement]
      simp only [Render.statement]
      exact .within _ (prints_block _ node)
  | .inclusion node => by
      rw [statement]
      simp only [Render.statement]
      exact .within _ (.after (gives_inclusionHead node.call) (.pad _))
  | .inclusionBlock node => by
      rw [statement]
      simp only [Render.statement]
      exact .within _ (prints_inclusionBlock node)
  | .content _ | .comment _ => by
      rw [statement]
      simp only [Render.statement]
      exact .within _ (.pad _)

/-- A block prints its title, its call and its sections. -/
theorem prints_block (title : String) : ∀ node : Block,
    Prints (block title node) fun level => Render.line level title ++ Render.block level node
  | ⟨called, main, inverse, _, _, _, _⟩ => by
      have hsections := (prints_subsection "PROGRAM:" main).append
        (prints_subsection (Render.tagOpen ++ "^" ++ Render.tagClose) inverse)
      have hinside : Prints (do
          let text ← call called
          pad text
          subsection "PROGRAM:" main
          subsection (Render.tagOpen ++ "^" ++ Render.tagClose) inverse) _ :=
        .after (gives_call called) ((Prints.pad _).append hsections)
      have hall := (Prints.pad title).append hinside.deeper
      simp only [← String.append_assoc] at hall
      rw [block]
      simp only [Render.block, ← String.append_assoc]
      exact hall

/-- A partial block prints its name and its section. -/
theorem prints_inclusionBlock : ∀ node : InclusionBlock,
    Prints (inclusionBlock node) (Render.inclusionBlock · node)
  | ⟨called, main, _, _, _⟩ => fun p =>
      .bind (gives_inclusionHead called p) (.bind (leads_padded _ p)
        (.bind ((prints_program main).deeper.aside p) (Prints.pad _ p)))

/-- A section prints its title and, one level deeper, its statements. -/
theorem prints_subsection (title : String) : ∀ p : Option Program,
    Prints (subsection title p) (Render.subsection · title p)
  | none => .none
  | some p => (Prints.pad title).append (prints_program p).deeper

/-- A program prints its block parameters and its statements. -/
theorem prints_program : ∀ p : Program, Prints (program p) (Render.program · p)
  | ⟨body, names, _, _⟩ => ((prints_blockParams names).append (prints_statements body)).within _

/-- Statements print one after another. -/
theorem prints_statements : ∀ body : List Statement,
    Prints (statements body) (Render.statements · body)
  | [] => .none
  | s :: rest => (prints_statement s).append (prints_statements rest)

end

end Printing

/-! ## Whole trees -/

/-- The text of a list is that of its statements, joined. -/
theorem Render.statements_eq_join (level : Nat) (body : List Statement) :
    Render.statements level body = String.join (body.map (Render.statement level)) := by
  induction body with
  | nil => rfl
  | cons s rest ih => rw [Render.statements, List.map_cons, String.join_cons, ih]

/-- The text of a program is the line for the names of its block and the texts
of its statements in order. -/
theorem Render.program_eq (level : Nat) : ∀ p : Program, Render.program level p =
    Render.blockParams level p.blockParams ++ String.join (p.body.map (Render.statement level))
  | ⟨body, _, _, _⟩ => by
      rw [Render.program, Render.statements_eq_join]

/-- The printer and rendering make the same text of a template. -/
theorem Program.print_eq_render (p : Program) : p.print = p.render := by
  obtain ⟨visits, h⟩ := Printing.prints_program p {} []
  have hprint : p.print = "" ++ Render.program 0 p :=
    congrArg (fun w : Walked (Unit × Printer) => w.value.2.out) h
  rw [hprint, String.empty_append, Program.render]

/-- **The stateful printer computes a pure rendering.**  At every node the printer adds the
rendering of this node to one of its buffers, the text of a statement at the current level and
that of an expression at none, and leaves all else as it was.  Trees that show the same print the
same. -/
theorem Printing.computes_render :
    (∀ e, Writes (expr e) (Render.expr e)) ∧
    (∀ h, Writes (hash h) (Render.hash h)) ∧
    (∀ p, Writes (pair p) (Render.pair p)) ∧
    (∀ s, Prints (statement s) fun level => Render.statement level s) ∧
    (∀ p : Program, Prints (program p) fun level =>
      Render.blockParams level p.blockParams ++
        String.join (p.body.map (Render.statement level))) ∧
    (∀ p : Program, p.print = p.render) ∧
    ∀ p q : Program, p.visible = q.visible → p.print = q.print := by
  refine ⟨writes_expr, writes_hash, writes_pair, prints_statement, fun p => ?_,
    Program.print_eq_render, fun p q h => ?_⟩
  · simp only [← Render.program_eq]
    exact prints_program p
  · rw [p.print_eq_render, q.print_eq_render, Program.render, Program.render,
      ← Render.program_visible 0 p, ← Render.program_visible 0 q, h]

/-- The template `{{~../a}}`. -/
def markedParent : Text := "\x7b\x7b~../a\x7d\x7d".toList

/-- The template `{{{a}}}`. -/
def unescapedName : Text := "\x7b\x7b\x7ba\x7d\x7d\x7d".toList

/-- The two templates differ in a marker, in escaping, in the depth and the spelling of a path and
in places.  None of this shows. -/
theorem Printing.computes_render_markedParent : ∃ p q, parseRaw {} markedParent = .ok p ∧
    parseRaw {} unescapedName = .ok q ∧ p.visible = q.visible ∧ p.print = q.print ∧
    q.print = "\x7b\x7b p%a [] \x7d\x7d\n" := by
  obtain ⟨p, q, hp, hq, hvisible, hprint⟩ : ∃ p q, parseRaw {} markedParent = .ok p ∧
      parseRaw {} unescapedName = .ok q ∧ p.visible = q.visible ∧
      q.render = "\x7b\x7b p%a [] \x7d\x7d\n" := ⟨_, _, by cbv, by cbv, by rfl, by rfl⟩
  have hsame := Printing.computes_render.2.2.2.2.2
  exact ⟨p, q, hp, hq, hvisible, hsame.2 p q hvisible, (hsame.1 q).trans hprint⟩

end Stache
