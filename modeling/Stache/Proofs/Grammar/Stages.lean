import Stache.Proofs.Grammar.Derives

/-!
# Where a token stands

What the grammar takes next depends on the tokens in front.  A `Stage` keeps what it depends on:
the blocks that are open, the calls that the tag is in, and the part of a path or a call that was
read last.  It is read off the tokens one by one (`Stage.next`), without reading phrases.

A production need not know all of it.  `Stage.Weaker` compares what is known of a place.
-/

namespace Stache

/-- The name moves through the scopes: `..`, `.` or `this`. -/
def Grammar.isOperator (name : Text) : Bool := (Segment.ofIdent name none).isOperator

/-! ## Places -/

/-- The part of a template that a token stands in, by the token in front of it. -/
inductive Site where
  /-- Between tags. -/
  | text
  /-- In the body of a raw block. -/
  | raw
  /-- In a tag. -/
  | tag
  /-- Behind the parameters of a call. -/
  | pairs
  /-- Behind a name of a path.  `named` says that one of its names so far is no operator. -/
  | path (named : Bool)
  /-- Behind the separator of such a path, or behind `@`. -/
  | segment (named : Bool)
  /-- Among the names of a block. -/
  | names
deriving DecidableEq, Repr

namespace Site

/-- The place is in a tag. -/
def inTag : Site → Bool
  | text | raw => false
  | _ => true

/-- A name of the path that the place is in is no operator. -/
def named : Site → Bool
  | path named | segment named => named
  | _ => false

/-- Nothing but a name may stand here. -/
def wantsName : Site → Bool
  | segment _ | names => true
  | _ => false

/-- The place behind a name. -/
def behind (name : Text) : Site → Site
  | names => names
  | segment named => path (named || !Grammar.isOperator name)
  | _ => path !Grammar.isOperator name

/-- Names stand in tags. -/
theorem inTag_of_wantsName {p : Site} (h : p.wantsName = true) : p.inTag = true := by
  cases p <;> first | rfl | cases h

/-- A place in a tag is not between tags. -/
theorem ne_text {p : Site} (h : p.inTag = true) : p ≠ .text := by
  rintro rfl
  cases h

/-- Behind a name the tag goes on. -/
theorem inTag_behind (name : Text) (p : Site) : (p.behind name).inTag = true := by
  cases p <;> rfl

/-- Less is known of what may stand at the first place. -/
inductive Weaker : Site → Site → Prop where
  | refl (p : Site) : Weaker p p
  | pairs : Weaker tag pairs
  | path (named : Bool) : Weaker tag (path named)
  | named : Weaker (path false) (path true)
  | segment : Weaker (segment false) (segment true)

namespace Weaker

variable {p q : Site}

/-- Two places behind names, where a name of the first path that is no operator is one of the
second. -/
theorem path_of {a b : Bool} (h : a = true → b = true) : Weaker (.path a) (.path b) := by
  cases a <;> cases b <;> first | exact .refl _ | exact .named | cases h rfl

/-- The same for places behind separators. -/
theorem segment_of {a b : Bool} (h : a = true → b = true) : Weaker (.segment a) (.segment b) := by
  cases a <;> cases b <;> first | exact .refl _ | exact .segment | cases h rfl

/-- What is known of a place does not change whether it is in a tag. -/
theorem inTag_eq (h : Weaker p q) : p.inTag = q.inTag := by cases h <;> rfl

/-- Where less is known, no more names of the path are known. -/
theorem named_of (h : Weaker p q) (hp : p.named = true) : q.named = true := by
  cases h with
  | refl => exact hp
  | pairs | path | named | segment => cases hp

/-- Less is known behind the same name too. -/
theorem behind (h : Weaker p q) (name : Text) : Weaker (p.behind name) (q.behind name) := by
  cases h with
  | refl => exact .refl _
  | pairs | path | named => exact .refl _
  | segment => exact path_of fun _ => rfl

end Weaker

end Site

/-- Where a token stands.  For each open block, the innermost first, `links` says that the next
link of an else chain may come in it.  In a tag, `calls` has the call of the tag and one for each
parenthesis or list that is open, the innermost first, and says that no parameter can come in it:
an `=` stands in it in front of the token, or the tag closes a block.  What the two leave out has
none. -/
structure Stage where
  links : List Bool
  calls : List Bool
  site : Site
deriving DecidableEq, Repr

namespace Stage

/-- In front of the first token. -/
def initial : Stage := ⟨[], [], .text⟩

/-- No parameter can stand here: it cannot in the call, or its parameters lie in front. -/
def noParams (m : Stage) : Bool := m.calls.headD false || m.site == .pairs

/-- In front of the parameters of a call, and among them, the call decides. -/
theorem noParams_tag (links calls : List Bool) :
    noParams ⟨links, calls, .tag⟩ = calls.headD false := Bool.or_false _

/-- Behind the parameters there are none. -/
theorem noParams_pairs (links calls : List Bool) : noParams ⟨links, calls, .pairs⟩ = true :=
  Bool.or_true _

/-- The place behind a token. -/
def next (m : Stage) : Token → Stage
  | .content _ => if m.site.inTag then { m with site := .tag } else m
  | .comment _ | .closer _ | .unescapedCloser _ | .rawEnd _ => ⟨m.links, [], .text⟩
  | .elseTag _ => ⟨false :: m.links.tail, [], .text⟩
  | .rawCloser => ⟨m.links, [], .raw⟩
  | .opener kind _ =>
      match kind with
      | .block => ⟨true :: m.links, [], .tag⟩
      | .inverse | .inclusionBlock => ⟨false :: m.links, [], .tag⟩
      | .chain => ⟨true :: m.links.tail, [], .tag⟩
      | .close => ⟨m.links.tail, [true], .tag⟩
      | .plain | .unescaped | .inclusion => ⟨m.links, [], .tag⟩
  | .rawOpener => ⟨m.links, [], .tag⟩
  | .parenOpen | .arrayOpen => ⟨m.links, false :: m.calls, .tag⟩
  | .parenClose | .arrayClose => ⟨m.links, m.calls.tail, .tag⟩
  | .equals => ⟨m.links, true :: m.calls.tail, .tag⟩
  | .data => { m with site := .segment false }
  | .separator _ => { m with site := .segment m.site.named }
  | .ident name => { m with site := m.site.behind name }
  | .paramsOpen => { m with site := .names }
  | .paramsClose | .string _ | .number _ | .boolean _ | .undefined | .null =>
      { m with site := .tag }

/-! ## What is known of a place -/

/-- What the first list says holds in the second. -/
def Fewer (a b : List Bool) : Prop := ∀ n, a.getD n false = true → b.getD n false = true

namespace Fewer

variable {a b : List Bool}

theorem refl (a : List Bool) : Fewer a a := fun _ => id

/-- The same holds where one more is open. -/
theorem cons (h : Fewer a b) (x : Bool) : Fewer (x :: a) (x :: b)
  | 0 => id
  | n + 1 => h n

/-- The same holds where one is closed. -/
theorem tail (h : Fewer a b) : Fewer a.tail b.tail := by
  intro n
  have hn := h (n + 1)
  cases a with
  | nil => exact nofun
  | cons _ a =>
      cases b with
      | nil => exact hn
      | cons _ b => exact hn

theorem head (h : Fewer a b) (ha : a.headD false = true) : b.headD false = true := by
  have h₀ := h 0
  cases a with
  | nil => cases ha
  | cons _ a =>
      cases b with
      | nil => exact h₀ ha
      | cons _ b => exact h₀ ha

/-- It may hold of the innermost one. -/
theorem top (a : List Bool) : Fewer a (true :: a.tail)
  | 0 => fun _ => rfl
  | n + 1 => by
      cases a with
      | nil => exact nofun
      | cons _ a => exact id

end Fewer

/-- Less is known of what may stand at the first place: more links may come in its blocks, and
parameters in more of its calls. -/
inductive Weaker : Stage → Stage → Prop where
  | site {links links' a b : List Bool} {p q : Site} (hlinks : Fewer links' links)
      (hcalls : Fewer a b) (h : p.Weaker q) : Weaker ⟨links, a, p⟩ ⟨links', b, q⟩
  | argument (links a : List Bool) : Weaker ⟨links, a, .pairs⟩ ⟨links, true :: a.tail, .tag⟩

namespace Weaker

variable {m m' : Stage}

theorem refl (m : Stage) : Weaker m m := .site (.refl _) (.refl _) (.refl _)

/-- A place in the same blocks and calls. -/
theorem of_site {links a : List Bool} {p q : Site} (h : p.Weaker q) :
    Weaker ⟨links, a, p⟩ ⟨links, a, q⟩ :=
  .site (.refl _) (.refl _) h

/-- What is known of a place does not change whether it is in a tag. -/
theorem inTag_eq (h : Weaker m m') : m.site.inTag = m'.site.inTag := by
  cases h with
  | site _ _ h => exact h.inTag_eq
  | argument => rfl

theorem links (h : Weaker m m') : Fewer m'.links m.links := by
  cases h with
  | site h => exact h
  | argument => exact .refl _

theorem calls (h : Weaker m m') : Fewer m.calls m'.calls := by
  cases h with
  | site _ h => exact h
  | argument _ a => exact .top a

/-- The same place between tags. -/
theorem text_of (h : Weaker m m') (hm : m'.site = .text) : m.site = .text := by
  cases h with
  | site _ _ h => cases h <;> first | rfl | exact hm | cases hm
  | argument => cases hm

/-- Nothing but a name may stand at the other place either. -/
theorem wantsName_eq (h : Weaker m m') : m.site.wantsName = m'.site.wantsName := by
  cases h with
  | site _ _ h => cases h <;> rfl
  | argument => rfl

/-- Behind a separator the other place is behind one too. -/
theorem segment_of (h : Weaker m m') (hm : m.site = .segment true) :
    m'.site = .segment true := by
  cases h with
  | site _ _ h => cases h <;> first | rfl | exact hm | cases hm
  | argument => cases hm

/-- If no parameter can stand at a place of which less is known, none can at the other. -/
theorem noParams_of (h : Weaker m m') (hm : m.noParams = true) : m'.noParams = true := by
  cases h with
  | site _ hcalls h =>
      rw [noParams, Bool.or_eq_true] at hm ⊢
      refine hm.imp hcalls.head fun hpairs => ?_
      cases h <;> first | rfl | exact hpairs | cases hpairs
  | argument => rfl

/-- Less is known behind the same token too. -/
theorem next (h : Weaker m m') (t : Token) : Weaker (m.next t) (m'.next t) := by
  have hlinks := h.links
  have hcalls := h.calls
  cases t with
  | content =>
      cases h with
      | site hlinks hcalls h =>
          rw [Stage.next, Stage.next, h.inTag_eq]
          split
          · exact .site hlinks hcalls (.refl _)
          · exact .site hlinks hcalls h
      | argument links a => exact .site (.refl _) (.top a) (.refl _)
  | comment | closer | unescapedCloser | rawEnd | rawCloser | rawOpener =>
      exact .site hlinks (.refl _) (.refl _)
  | elseTag => exact .site (hlinks.tail.cons false) (.refl _) (.refl _)
  | opener kind =>
      cases kind with
      | block => exact .site (hlinks.cons true) (.refl _) (.refl _)
      | inverse | inclusionBlock => exact .site (hlinks.cons false) (.refl _) (.refl _)
      | chain => exact .site (hlinks.tail.cons true) (.refl _) (.refl _)
      | close => exact .site hlinks.tail (.refl _) (.refl _)
      | plain | unescaped | inclusion => exact .site hlinks (.refl _) (.refl _)
  | parenOpen | arrayOpen => exact .site hlinks (hcalls.cons false) (.refl _)
  | parenClose | arrayClose => exact .site hlinks hcalls.tail (.refl _)
  | equals => exact .site hlinks (hcalls.tail.cons true) (.refl _)
  | separator =>
      cases h with
      | site hlinks hcalls h => exact .site hlinks hcalls (.segment_of h.named_of)
      | argument links a => exact .site (.refl _) (.top a) (.refl _)
  | ident name =>
      cases h with
      | site hlinks hcalls h => exact .site hlinks hcalls (h.behind name)
      | argument links a => exact .site (.refl _) (.top a) (.refl _)
  | data | paramsOpen | paramsClose | string | number | boolean | undefined | null =>
      exact .site hlinks hcalls (.refl _)

end Weaker

end Stage
end Stache
