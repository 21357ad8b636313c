import Stache.Token
import Stache.Tree.Basic

/-!
# A source as a row

The tokens of a template put together again to what they delimit: texts, and
tags with the markers at their outer ends.  This is the template as its author
sees it, without any tree.
-/

namespace Stache

/-- What a tag does to the nesting: nothing, it opens a block, is the next link of
an else chain, starts an else section, or ends a block. -/
inductive Role where
  | leaf
  | opening (inverted : Bool)
  | link
  | middle
  | closing
deriving DecidableEq, Repr

/-- A text, or a tag with its markers: a `~` at its start and a `~` at its
end. -/
inductive Part where
  | text (t : Text)
  | tag (role : Role) (before after : Bool)
deriving DecidableEq, Repr

/-- A tag with some markers, in a row. -/
def Strip.part (strip : Strip) (role : Role) : Part := .tag role strip.before strip.after

/-- What a tag does that starts with a delimiter. -/
def Opener.role : Opener → Role
  | .plain | .unescaped | .inclusion => .leaf
  | .block | .inclusionBlock => .opening false
  | .inverse => .opening true
  | .chain => .link
  | .close => .closing

/-- A tag starts with a marker. -/
def opensMarked (t : Text) : Bool := ['{', '{', '~'].isPrefixOf t

/-- A tag ends with a marker. -/
def closesMarked (t : Text) : Bool := ['~', '}', '}'].isSuffixOf t

/-- The row of some tokens that follow the start of a tag with a given role,
with a marker at its start or without one. -/
def rowBehind (role : Role) (before : Bool) : List Lexeme → List Part
  | [] => []
  | l :: ls =>
      match l.token with
      | .content t => .text t :: rowBehind .leaf false ls
      | .comment t => .tag .leaf (opensMarked t) (closesMarked t) :: rowBehind .leaf false ls
      | .elseTag t => .tag .middle (opensMarked t) (closesMarked t) :: rowBehind .leaf false ls
      | .opener kind t => rowBehind kind.role (opensMarked t) ls
      | .rawOpener => rowBehind (.opening false) false ls
      | .closer t | .unescapedCloser t =>
          .tag role before (closesMarked t) :: rowBehind .leaf false ls
      | .rawCloser => .tag role before false :: rowBehind .leaf false ls
      | .rawEnd _ => .tag .closing false false :: rowBehind .leaf false ls
      | _ => rowBehind role before ls
termination_by structural ls => ls

/-- The row of a template. -/
def rowOf (ls : List Lexeme) : List Part := rowBehind .leaf false ls

/-- No else section follows the main section of an inverted block.  `inside` says
of each block that is not closed yet, the innermost first, if it is inverted. -/
def plainElses (inside : List Bool) : List Part → Bool
  | [] => true
  | .tag (.opening inverted) _ _ :: ps => plainElses (inverted :: inside) ps
  | .tag .closing _ _ :: ps => plainElses inside.tail ps
  | .tag .middle _ _ :: ps => inside.head? != some true && plainElses inside ps
  | _ :: ps => plainElses inside ps
termination_by structural ps => ps

/-! ## Balanced rows -/

/-- Every block of a row is closed in it.  The flag says that the row stands
inside a block and may hold else tags of it. -/
inductive Balanced : Bool → List Part → Prop where
  | nil {inner : Bool} : Balanced inner []
  | text {inner : Bool} {t : Text} {row : List Part} (h : Balanced inner row) :
      Balanced inner (.text t :: row)
  | leaf {inner before after : Bool} {row : List Part} (h : Balanced inner row) :
      Balanced inner (.tag .leaf before after :: row)
  | block {inner inverted before after before' after' : Bool} {row row' : List Part}
      (h : Balanced true row) (h' : Balanced inner row') :
      Balanced inner (.tag (.opening inverted) before after ::
        (row ++ .tag .closing before' after' :: row'))
  | link {before after : Bool} {row : List Part} (h : Balanced true row) :
      Balanced true (.tag .link before after :: row)
  | middle {before after : Bool} {row : List Part} (h : Balanced true row) :
      Balanced true (.tag .middle before after :: row)

theorem Balanced.append {inner : Bool} {row row' : List Part} (h : Balanced inner row)
    (h' : Balanced inner row') : Balanced inner (row ++ row') := by
  induction h with
  | nil => exact h'
  | text _ ih => exact .text (ih h')
  | leaf _ ih => exact .leaf (ih h')
  | block h _ _ ih =>
      rw [List.cons_append, List.append_assoc]
      exact .block h (ih h')
  | link _ ih => exact .link (ih h')
  | middle _ ih => exact .middle (ih h')

theorem Balanced.plainElses {inner : Bool} {row : List Part} (h : Balanced inner row)
    {inside : List Bool} {ahead : List Part}
    (helse : Stache.plainElses inside (row ++ ahead) = true) :
    Stache.plainElses inside ahead = true := by
  induction h generalizing inside ahead with
  | nil => exact helse
  | text _ ih | leaf _ ih | link _ ih => exact ih helse
  | block _ _ ih ih' =>
      rw [List.cons_append, List.append_assoc] at helse
      have hclosing : Stache.plainElses (_ :: inside) (.tag .closing _ _ :: (_ ++ ahead)) = true :=
        ih helse
      exact ih' hclosing
  | middle _ ih =>
      obtain ⟨-, hrow⟩ := Bool.and_eq_true_iff.mp helse
      exact ih hrow

/-! ## Tokens inside a tag -/

/-- The token stands inside a tag, between its delimiters. -/
def Token.isInner : Token → Bool
  | .content _ | .comment _ | .elseTag _ | .opener _ _ | .rawOpener | .closer _
  | .unescapedCloser _ | .rawCloser | .rawEnd _ => false
  | _ => true

/-- Some tokens stand inside a tag. -/
def Inner (ls : List Lexeme) : Prop := ∀ l ∈ ls, l.token.isInner = true

theorem Inner.nil : Inner [] := nofun

theorem Inner.cons {t : Token} {s : Span} {ls : List Lexeme} (ht : t.isInner = true)
    (h : Inner ls) : Inner (⟨t, s⟩ :: ls) := List.forall_mem_cons.mpr ⟨ht, h⟩

theorem Inner.append {ls ls' : List Lexeme} (h : Inner ls) (h' : Inner ls') : Inner (ls ++ ls') :=
  List.forall_mem_append.mpr ⟨h, h'⟩

/-- The inside of a tag leaves no trace in the row. -/
theorem rowBehind_inner {ls : List Lexeme} (h : Inner ls) (role : Role) (before : Bool)
    (rest : List Lexeme) : rowBehind role before (ls ++ rest) = rowBehind role before rest := by
  induction ls with
  | nil => rfl
  | cons l ls ih =>
      obtain ⟨hl, hls⟩ := List.forall_mem_cons.mp h
      obtain ⟨token, span⟩ := l
      rw [List.cons_append, ← ih hls]
      cases token <;> first | rfl | exact nomatch hl

end Stache
