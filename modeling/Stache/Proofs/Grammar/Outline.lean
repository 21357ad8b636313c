import Stache.Proofs.Grammar.Derives
import Stache.Proofs.Grammar.Spelled
import Stache.Proofs.Tree.Outline

/-!
# Outlines read off tokens

The outline of an accepted template can be read off its tokens, one after the
other, with a stack of the blocks that are open.  An opening tag puts a block on
the stack, an else tag begins the next section of the block on top, and a closing
tag takes the block off and leaves its outline in the section around it.

The reader takes any tokens.  Those that write some statements put the outlines
of the statements at the end of the section on top and leave all else as it was
(`yields_of_writesStatements`), and those that derive `statements` put something
there that does not depend on the stack (`yields_of_derives`).  So in a template
the tokens of a body may be exchanged for others without any trace outside.
-/

namespace Stache

/-! ## The inside of tags -/

/-- All of some tokens stand inside a tag. -/
def AllInner (ts : List Token) : Prop := ∀ t ∈ ts, t.isInner = true

namespace AllInner

variable {ts ts' : List Token}

theorem nil : AllInner [] := nofun

theorem cons {t : Token} (ht : t.isInner = true) (h : AllInner ts) : AllInner (t :: ts) :=
  List.forall_mem_cons.mpr ⟨ht, h⟩

theorem append (h : AllInner ts) (h' : AllInner ts') : AllInner (ts ++ ts') :=
  List.forall_mem_append.mpr ⟨h, h'⟩

end AllInner

theorem Inner.tokensOf {ls : List Lexeme} (h : Inner ls) : AllInner (Grammar.tokensOf ls) :=
  List.forall_mem_map.mpr h

namespace Outline

/-! ## Open blocks -/

/-- A section that was begun, with the tag in front of it. -/
structure Begun where
  role : Role
  strip : Strip
  /-- The outlines of its statements so far. -/
  body : List Statement

/-- The open blocks, the innermost first.  Each has the sections that were begun
in it, the last one first.  The template is the outermost block. -/
abbrev Stack := List (List Begun)

/-- The markers of the first of some sections. -/
def nextStrip : List Begun → Strip
  | [] => {}
  | b :: _ => b.strip

/-- The else section of a block, made of the sections behind its main section.
A link takes the markers of the tag behind it for those of its closing tag, and
the first link is given those of the closing tag of the block. -/
def inverse (closing : Strip) : List Begun → Option Program
  | [] => none
  | ⟨role, strip, body⟩ :: rest =>
      match role with
      | .link =>
          some (program true [block (some (program false body)) (inverse (nextStrip rest) rest)
            strip (nextStrip rest) closing])
      | _ => some (program false body)
termination_by structural sections => sections

/-- A block, made of its sections, once its closing tag is read. -/
def closed (closing : Strip) : List Begun → List Statement
  | [] => []
  | ⟨role, opening, body⟩ :: rest =>
      let main := some (program false body)
      let other := inverse closing rest
      match role with
      | .opening true => [block other main opening (nextStrip rest) closing]
      | _ => [block main other opening (nextStrip rest) closing]

namespace Stack

/-- More statements in the section on top. -/
def extend (stack : Stack) (more : List Statement) : Stack :=
  match stack with
  | (b :: bs) :: stack => ({ b with body := b.body ++ more } :: bs) :: stack
  | stack => stack

/-- One more tag. -/
def tag (stack : Stack) (role : Role) (lone : Bool) (strip : Strip) : Stack :=
  match role, stack with
  | .leaf, stack => stack.extend [leaf lone strip]
  | .opening inverted, stack => [⟨.opening inverted, strip, []⟩] :: stack
  | .link, bs :: stack => (⟨.link, strip, []⟩ :: bs) :: stack
  | .middle, bs :: stack => (⟨.middle, strip, []⟩ :: bs) :: stack
  | .closing, bs :: stack => extend stack (closed strip bs.reverse)
  | _, [] => []

/-- A closing tag behind the sections of a block, the last of them on top. -/
theorem tag_closing (stack : Stack) (b : Begun) (sections : List Begun) (strip : Strip) :
    tag ((sections.reverse ++ [b]) :: stack) .closing false strip =
      stack.extend (closed strip (b :: sections)) := by
  have hreverse : (sections.reverse ++ [b]).reverse = b :: sections := by simp
  rw [tag, hreverse]

theorem extend_nil (stack : Stack) : stack.extend [] = stack := by
  match stack with
  | [] | [] :: _ => rfl
  | (⟨_, _, body⟩ :: _) :: _ => rw [extend, List.append_nil]

theorem extend_extend (stack : Stack) (more more' : List Statement) :
    (stack.extend more).extend more' = stack.extend (more ++ more') := by
  match stack with
  | [] | [] :: _ => rfl
  | (⟨_, _, body⟩ :: _) :: _ => simp only [extend, List.append_assoc]

end Stack

/-! ## The reader -/

/-- The open blocks, and the tag that is being read. -/
structure Draft where
  stack : Stack
  role : Role := .leaf
  lone : Bool := false
  /-- Its opening delimiter. -/
  opener : Text := []

namespace Draft

/-- The tag that is being read ends. -/
def close (d : Draft) (closer : Text) : Draft :=
  { stack := d.stack.tag d.role d.lone (.ofDelimiters d.opener closer) }

/-- One token. -/
def step (d : Draft) : Token → Draft
  | .content t => { stack := d.stack.extend [.content (text t)] }
  | .comment t => { stack := d.stack.tag .leaf true (.ofDelimiters t t) }
  | .elseTag t => { stack := d.stack.tag .middle false (.ofDelimiters t t) }
  | .opener kind t =>
      { stack := d.stack, role := kind.role, lone := kind == .inclusion, opener := t }
  | .rawOpener => { stack := d.stack, role := .opening false }
  | .closer t | .unescapedCloser t => d.close t
  | .rawCloser => d.close []
  | .rawEnd _ => { stack := d.stack.tag .closing false {} }
  | _ => d

/-- All of some tokens. -/
def read (d : Draft) (ts : List Token) : Draft := ts.foldl step d

theorem read_append (d : Draft) (ts ts' : List Token) :
    d.read (ts ++ ts') = (d.read ts).read ts' := List.foldl_append

/-- The inside of a tag leaves no trace. -/
theorem read_inner (d : Draft) {ts : List Token} (h : AllInner ts) :
    d.read ts = d := by
  induction ts with
  | nil => rfl
  | cons t ts ih =>
      obtain ⟨ht, hts⟩ := List.forall_mem_cons.mp h
      have hstep : d.step t = d := by cases t <;> first | rfl | exact nomatch ht
      show (d.step t).read ts = d
      rw [hstep, ih hts]

/-- A tag, whatever was read before. -/
theorem read_tag (d : Draft) {kind : Opener} {opener closer : Text} {last : Token}
    {ts : List Token} (hlast : last = .closer closer ∨ last = .unescapedCloser closer)
    (h : AllInner ts) :
    d.read (.opener kind opener :: (ts ++ [last])) =
      { stack := d.stack.tag kind.role (kind == .inclusion) (.ofDelimiters opener closer) } := by
  show (Draft.mk d.stack kind.role (kind == .inclusion) opener).read (ts ++ [last]) = _
  rw [read_append, read_inner _ h]
  rcases hlast with rfl | rfl <;> rfl

end Draft

/-- Between tags, some tokens lead from a stack to another. -/
def Yields (stack : Stack) (ts : List Token) (stack' : Stack) : Prop :=
  (Draft.mk stack .leaf false []).read ts = ⟨stack', .leaf, false, []⟩

theorem Yields.append {stack stack' stack'' : Stack} {ts ts' : List Token}
    (h : Yields stack ts stack') (h' : Yields stack' ts' stack'') :
    Yields stack (ts ++ ts') stack'' := by
  rw [Yields, Draft.read_append, h, h']

/-- A tag. -/
theorem Yields.tag (stack : Stack) {kind : Opener} {opener closer : Text} {ts : List Token}
    (h : AllInner ts) :
    Yields stack (.opener kind opener :: (ts ++ [.closer closer]))
      (stack.tag kind.role (kind == .inclusion) (.ofDelimiters opener closer)) :=
  Draft.read_tag _ (.inl rfl) h

/-- A raw block. -/
theorem Yields.rawBlock (stack : Stack) {ts ts' : List Token} {name : Text} {body : List Statement}
    (h : AllInner ts) (h' : ∀ stack : Stack, Yields stack ts' (stack.extend body)) :
    Yields stack (.rawOpener :: (ts ++ .rawCloser :: (ts' ++ [.rawEnd name])))
      (stack.extend [block (some (program false body)) none {} {} {}]) := by
  show (Draft.mk stack (.opening false) false []).read (ts ++ _) = _
  rw [Draft.read_append, Draft.read_inner _ h]
  show (Draft.mk ([⟨.opening false, {}, []⟩] :: stack) .leaf false []).read (ts' ++ _) = _
  rw [Draft.read_append, h']
  rfl

section

variable {stack : Stack} {lone : Bool} {strip strip' : Strip} {body : List Statement}
  {sections : List Begun} {ts ts' ts'' ts''' : List Token}

/-- A block, from its tags and sections. -/
theorem Yields.block {inverted : Bool}
    (hhead : Yields stack ts (stack.tag (.opening inverted) lone strip))
    (hbody : ∀ stack : Stack, Yields stack ts' (stack.extend body))
    (hother : ∀ (bs : List Begun) (stack : Stack),
      Yields (bs :: stack) ts'' ((sections.reverse ++ bs) :: stack))
    (htail : ∀ stack : Stack, Yields stack ts''' (stack.tag .closing false strip')) :
    Yields stack (ts ++ (ts' ++ (ts'' ++ ts''')))
      (stack.extend (closed strip' (⟨.opening inverted, strip, body⟩ :: sections))) := by
  rw [← Stack.tag_closing]
  exact hhead.append ((hbody _).append ((hother [⟨.opening inverted, strip, body⟩] stack).append
    (htail _)))

/-- The next link of a chain, from its else tag and its sections. -/
theorem Yields.link {bs : List Begun}
    (hhead : Yields (bs :: stack) ts (Stack.tag (bs :: stack) .link lone strip))
    (hbody : ∀ stack : Stack, Yields stack ts' (stack.extend body))
    (hother : ∀ (bs : List Begun) (stack : Stack),
      Yields (bs :: stack) ts'' ((sections.reverse ++ bs) :: stack)) :
    Yields (bs :: stack) (ts ++ (ts' ++ ts''))
      (((⟨.link, strip, body⟩ :: sections).reverse ++ bs) :: stack) := by
  rw [List.reverse_cons, List.append_assoc]
  exact hhead.append ((hbody _).append (hother (⟨.link, strip, body⟩ :: bs) stack))

end

end Outline

/-! ## What writes statements yields their outlines -/

namespace Builder

variable {b : Builder}

theorem outline_mustache (opener : Text) (called : Call) (strip : Strip) (x : Extent) :
    (b.mustache opener called strip x).outline = Outline.leaf false strip := by
  unfold mustache
  dsimp only
  split <;> rfl

theorem outline_rawBlock {called : Call} {body : List Statement} {name : Text} {x : Extent}
    {s : Statement} (h : b.rawBlock called body name x = .ok s) :
    s.outline = Outline.block (some (Outline.program false (Body.outline body))) none {} {} {} := by
  obtain ⟨-, -, h⟩ := exists_of_bind_eq_ok h
  cases h
  rfl

theorem outline_inclusionBlock {head : BlockOpening} {body : List Statement} {tail : BlockClosing}
    {x : Extent} {s : Statement}
    (h : b.inclusionBlock head (Builder.program body none) tail x = .ok s) :
    s.outline = Outline.block (some (Outline.program false (Body.outline body))) none head.strip {}
      tail.strip := by
  obtain ⟨-, -, h⟩ := exists_of_bind_eq_ok h
  cases h
  rfl

end Builder

namespace Outline

/-- Some sections are those of an else section, whatever markers a first link is
going to take in place of a closing tag. -/
structure Sketches (sections : List Begun) (other : Option ElseSection) : Prop where
  strip : nextStrip sections = (other.map ElseSection.strip).getD {}
  inverse : ∀ {decorator : Bool} {closing : Strip} {loc : Location} {q : Option Program},
    Builder.inverseProgram decorator closing loc other = .ok q →
      inverse closing sections = Section.outline q

end Outline

namespace Builder

open Outline

variable {b : Builder} {sections : List Begun}

/-- The outline of a block. -/
theorem outline_block {head : BlockOpening} {body : List Statement} {other : Option ElseSection}
    {tail : BlockClosing} {inverted : Bool} {x : Extent} {s : Statement}
    (hother : Sketches sections other)
    (h : b.block head (Builder.program body none) other (some tail) inverted x = .ok s) :
    [s.outline] =
      closed tail.strip (⟨.opening inverted, head.strip, Body.outline body⟩ :: sections) := by
  obtain ⟨decorator, q, node, hinverse, hs, rfl⟩ := exists_of_block h
  have hq : inverse tail.strip sections = Section.outline q := hother.inverse hinverse
  cases inverted with
  | true =>
      show _ = [Outline.block (inverse tail.strip sections) _ _ (nextStrip sections) _]
      rw [hq, hother.strip]
      rcases hs with rfl | rfl <;> rfl
  | false =>
      show _ = [Outline.block _ (inverse tail.strip sections) _ (nextStrip sections) _]
      rw [hq, hother.strip]
      rcases hs with rfl | rfl <;> rfl

theorem sketches_plain (strip : Strip) (body : List Statement) :
    Sketches [⟨.middle, strip, Body.outline body⟩]
      (some ⟨strip, Builder.program body none, false⟩) where
  strip := rfl
  inverse h := by
    rw [eq_of_inverseProgram rfl h]
    rfl

theorem sketches_link {head : BlockOpening} {body : List Statement} {other : Option ElseSection}
    {x : Extent} {block : Statement} {loc : Option Location} (hother : Sketches sections other)
    (h : b.block head (Builder.program body none) other
      (other.map fun s => (⟨none, s.strip⟩ : BlockClosing)) false x = .ok block) :
    Sketches (⟨.link, head.strip, Body.outline body⟩ :: sections)
      (some ⟨head.strip, chainedProgram block loc, true⟩) where
  strip := rfl
  inverse hinverse := by
    obtain ⟨q, hq, rfl⟩ := closeChain_of_inverseProgram rfl hinverse
    obtain ⟨decorator, inverse', node, hinverse', hs, rfl⟩ := exists_of_block h
    rw [strip_linkClosing] at hinverse'
    have hlink := hother.inverse hinverse'
    rcases hs with rfl | rfl
    · cases hq
      rw [inverse, hother.strip, hlink]
      rfl
    · cases hq

end Builder

namespace Grammar

open Outline

variable {g : Grammar} {ls : List Lexeme}

theorem yields_of_writesOpening {kind : Opener} {head : BlockOpening}
    (h : g.WritesOpening kind ls head) (stack : Stack) :
    Yields stack (tokensOf ls) (stack.tag kind.role (kind == .inclusion) head.strip) := by
  cases h with
  | mk hcall hnames _ =>
      have hinner := (inner_of_writesCall hcall).append (inner_of_writesNames hnames)
      simp only [tag, tokensOf_cons, tokensOf_append _ [_], tokensOf_nil]
      exact .tag stack hinner.tokensOf

theorem yields_of_writesClosing {tail : BlockClosing} (h : g.WritesClosing ls tail)
    (stack : Stack) : Yields stack (tokensOf ls) (stack.tag .closing false tail.strip) := by
  cases h with
  | mk h =>
      simp only [tag, tokensOf_cons, tokensOf_append, tokensOf_nil]
      exact .tag stack (inner_of_writesExpr h).tokensOf

theorem yields_of_writesContents {body : List Statement} (h : g.WritesContents ls body)
    (stack : Stack) : Yields stack (tokensOf ls) (stack.extend (Body.outline body)) := by
  induction h generalizing stack with
  | nil =>
      rw [Body.outline, Stack.extend_nil]
      rfl
  | @cons text s ls more _ ih =>
      have hcontent : Yields stack [.content text] (stack.extend [.content (Outline.text text)]) :=
        rfl
      have happend := hcontent.append (ih _)
      rw [Stack.extend_extend] at happend
      exact happend

mutual

theorem yields_of_writesStatements : ∀ {ls : List Lexeme} {body : List Statement},
    g.WritesStatements ls body → ∀ stack : Stack,
      Yields stack (tokensOf ls) (stack.extend (Body.outline body))
  | _, _, .nil, stack => by
      rw [Body.outline, Stack.extend_nil]
      rfl
  | _, _, .cons hs h, stack => by
      have happend := (yields_of_writesStatement hs stack).append (yields_of_writesStatements h _)
      rw [Stack.extend_extend, ← tokensOf_append] at happend
      exact happend

theorem yields_of_writesStatement : ∀ {ls : List Lexeme} {s : Statement},
    g.WritesStatement ls s → ∀ stack : Stack, Yields stack (tokensOf ls) (stack.extend [s.outline])
  | _, _, .content, _ => rfl
  | _, _, .comment, _ => rfl
  | _, _, .plain h, stack => by
      simp only [tag, tokensOf_cons, tokensOf_append, tokensOf_nil, Builder.outline_mustache]
      exact .tag stack (inner_of_writesCall h).tokensOf
  | _, _, .unescaped h, stack => by
      simp only [tokensOf_cons, tokensOf_append, tokensOf_nil, Builder.outline_mustache]
      exact Draft.read_tag _ (.inr rfl) (inner_of_writesCall h).tokensOf
  | _, _, .inclusion h, stack => by
      simp only [tag, tokensOf_cons, tokensOf_append, tokensOf_nil]
      exact .tag stack (inner_of_writesCall h).tokensOf
  | _, _, .rawBlock hcall hbody hblock, stack => by
      simp only [tokensOf_cons, tokensOf_append, tokensOf_nil, Builder.outline_rawBlock hblock]
      exact .rawBlock stack (inner_of_writesCall hcall).tokensOf
        (yields_of_writesContents hbody)
  | _, _, .block hhead hbody hother htail hblock, stack => by
      obtain ⟨sections, hsketch, hsections⟩ := yields_of_writesSection hother
      have hopening := yields_of_writesOpening hhead stack
      rw [role_ite] at hopening
      rw [Builder.outline_block hsketch hblock]
      simp only [tokensOf_append]
      exact hopening.block (yields_of_writesStatements hbody) hsections
        (yields_of_writesClosing htail)
  | _, _, .inclusionBlock hhead hbody htail hblock, stack => by
      rw [Builder.outline_inclusionBlock hblock, tokensOf_append, tokensOf_append]
      exact (yields_of_writesOpening hhead stack).append
        ((yields_of_writesStatements hbody _).append (yields_of_writesClosing htail _))

theorem yields_of_writesSection : ∀ {chains : Bool} {ls : List Lexeme}
    {other : Option ElseSection}, g.WritesSection chains ls other →
    ∃ sections : List Begun, Sketches sections other ∧ ∀ (bs : List Begun) (stack : Stack),
      Yields (bs :: stack) (tokensOf ls) ((sections.reverse ++ bs) :: stack)
  | _, _, _, .none => ⟨[], ⟨rfl, fun h => by cases h; rfl⟩, fun _ _ => rfl⟩
  | _, _, _, .plain h => by
      refine ⟨_, Builder.sketches_plain _ _, fun bs stack => ?_⟩
      exact yields_of_writesStatements h ((⟨.middle, _, []⟩ :: bs) :: stack)
  | _, _, _, .link hhead hbody hother hblock => by
      obtain ⟨sections, hsketch, hsections⟩ := yields_of_writesSection hother
      refine ⟨_, Builder.sketches_link hsketch hblock, fun bs stack => ?_⟩
      rw [tokensOf_append, tokensOf_append]
      exact (yields_of_writesOpening hhead _).link (yields_of_writesStatements hbody) hsections

end

/-! ## What derives statements -/

/-- What the reader does with the tokens of a phrase. -/
def Phrase.Yields : Phrase → List Token → Prop
  | .opening kind, ts => ∃ strip, ∀ stack : Stack,
      Outline.Yields stack ts (stack.tag kind.role (kind == .inclusion) strip)
  | .closing, ts => ∃ strip, ∀ stack : Stack,
      Outline.Yields stack ts (stack.tag .closing false strip)
  | .contents, ts | .statement, ts | .statements, ts => ∃ body, ∀ stack : Stack,
      Outline.Yields stack ts (stack.extend body)
  | .elseSection _, ts => ∃ sections : List Begun, ∀ (bs : List Begun) (stack : Stack),
      Outline.Yields (bs :: stack) ts ((sections.reverse ++ bs) :: stack)
  | _, ts => AllInner ts

/-- Statements one after another. -/
theorem yields_append {ts ts' : List Token} (h : Phrase.Yields .statements ts)
    (h' : Phrase.Yields .statements ts') : Phrase.Yields .statements (ts ++ ts') := by
  obtain ⟨body, h⟩ := h
  obtain ⟨body', h'⟩ := h'
  refine ⟨body ++ body', fun stack => ?_⟩
  rw [← Stack.extend_extend]
  exact (h stack).append (h' _)

theorem yields_nil : Phrase.Yields .statements [] :=
  ⟨[], fun stack => by rw [Stack.extend_nil]; rfl⟩

/-- A block of any kind, from its parts. -/
theorem yields_block {kind : Opener} {inverted : Bool} {ts ts' ts'' ts''' : List Token}
    (hkind : kind.role = .opening inverted) (hhead : Phrase.Yields (.opening kind) ts)
    (hbody : Phrase.Yields .statements ts') {chains : Bool}
    (hother : Phrase.Yields (.elseSection chains) ts'') (htail : Phrase.Yields .closing ts''') :
    Phrase.Yields .statement (ts ++ (ts' ++ (ts'' ++ ts'''))) := by
  obtain ⟨strip, hhead⟩ := hhead
  obtain ⟨body, hbody⟩ := hbody
  obtain ⟨sections, hother⟩ := hother
  obtain ⟨strip', htail⟩ := htail
  rw [hkind] at hhead
  exact ⟨_, fun stack => (hhead stack).block hbody hother htail⟩

theorem yields_of_derives {phrase : Phrase} {ts : List Token} (h : Derives phrase ts) :
    phrase.Yields ts := by
  induction h with
  | tailNil | exprsNil | pairsNil | identsNil | namesNone => exact AllInner.nil
  | tailCons _ ih => exact .cons rfl (.cons rfl ih)
  | segments _ ih | data _ ih | identsCons _ ih => exact .cons rfl ih
  | path _ ih => exact ih
  | @literal t ht =>
      have hinner : t.isInner = true := by cases t <;> first | rfl | cases ht
      exact .cons hinner .nil
  | hash _ _ ih | sub _ ih | array _ ih => exact .cons rfl (.append ih (.cons rfl .nil))
  | subPath _ _ ih ih' => exact .cons rfl (.append ih (.cons rfl (.cons rfl ih')))
  | exprsCons _ _ ih ih' => exact .append ih ih'
  | pairsCons _ _ ih ih' => exact .cons rfl (.cons rfl (.append ih ih'))
  | call _ _ _ ih ih' ih'' => exact .append ih (.append ih' ih'')
  | namesSome _ ih => exact .cons rfl (.cons rfl (.append ih (.cons rfl .nil)))
  | contentsNil | statementsNil => exact yields_nil
  | @contentsCons text _ _ ih =>
      have hcontent : Phrase.Yields .statements [.content text] :=
        ⟨[.content (Outline.text text)], fun _ => rfl⟩
      exact yields_append hcontent ih
  | opening _ _ ih ih' =>
      rw [← List.append_assoc]
      exact ⟨_, fun stack => .tag stack (.append ih ih')⟩
  | closing _ ih => exact ⟨_, fun stack => .tag stack ih⟩
  | content => exact ⟨_, fun _ => rfl⟩
  | comment => exact ⟨_, fun _ => rfl⟩
  | plain _ ih | inclusion _ ih => exact ⟨_, fun stack => .tag stack ih⟩
  | unescaped _ ih => exact ⟨_, fun stack => Draft.read_tag _ (.inr rfl) ih⟩
  | @inclusionBlock opener closer ts _ _ _ _ _ ih ih' ih'' =>
      have hhead : Phrase.Yields (.opening .inclusionBlock)
          (.opener .inclusionBlock opener :: (ts ++ [.closer closer])) :=
        ⟨_, fun stack => .tag stack ih⟩
      have hnone : Phrase.Yields (.elseSection false) [] := ⟨[], fun _ _ => rfl⟩
      have hblock := yields_block rfl hhead ih' hnone ih''
      simp only [List.cons_append, List.append_assoc, List.nil_append] at hblock
      exact hblock
  | rawBlock _ _ ih ih' =>
      obtain ⟨body, hbody⟩ := ih'
      exact ⟨_, fun stack => .rawBlock stack ih hbody⟩
  | block _ _ _ _ ih ih' ih'' ih''' => exact yields_block rfl ih ih' ih'' ih'''
  | inverse _ _ _ _ ih ih' ih'' ih''' => exact yields_block rfl ih ih' ih'' ih'''
  | statementsCons _ _ ih ih' => exact yields_append ih ih'
  | sectionNone => exact ⟨[], fun _ _ => rfl⟩
  | sectionPlain _ ih =>
      obtain ⟨body, hbody⟩ := ih
      exact ⟨[⟨.middle, _, body⟩], fun bs stack => hbody ((⟨.middle, _, []⟩ :: bs) :: stack)⟩
  | sectionLink _ _ _ ih ih' ih'' =>
      obtain ⟨strip, hhead⟩ := ih
      obtain ⟨body, hbody⟩ := ih'
      obtain ⟨sections, hsections⟩ := ih''
      exact ⟨_, fun bs stack => (hhead (bs :: stack)).link hbody hsections⟩

end Grammar

/-! ## Templates -/

/-- The tokens of a template under given options. -/
def Options.tokens (o : Options) (text : Text) : List Token :=
  Grammar.tokensOf (tokenize o.brackets.isList text).lexemes

/-- Nothing is read yet. -/
def Outline.blank : Outline.Stack := [[⟨.leaf, {}, []⟩]]

/-- The reader makes the outline of an accepted template. -/
theorem yields_of_parseRaw {o : Options} {text : Text} {p : Program}
    (h : parseRaw o text = .ok p) :
    ∃ body, p.outline = Outline.program false body ∧
      Outline.Yields Outline.blank (o.tokens text) (Outline.blank.extend body) := by
  cases writesProgram_of_parseRaw h with
  | mk hbody => exact ⟨_, rfl, Grammar.yields_of_writesStatements hbody _⟩

end Stache
