import Stache.Proofs.Token.Row

/-!
# The markers that decide

Written out as a row, a template has a tag on each side of a text, and a `~` at
the near end of that tag takes the white space there.  This is what a template
without else chains does, and what a chain does at the start of its sections.
At the end of its sections it does not: the marker that decides there need not
be the one that is written there.

A link of a chain remembers markers in place of a closing tag of its own: the
first link those of the closing tag of the chain, a later one those of its own
opening tag (`closingMarker`).  They trim where a closing tag of the link would
stand, and besides at the end of the main section of the next link
(`handedMarker`).  So the marker of the closing tag is missing behind a chain of
two links or more, and others are there that nobody wrote.
-/

namespace Stache

/-- A text without the white space at its marked ends. -/
def Text.trimMarked (behind ahead : Bool) (t : Text) : Text :=
  let t := if behind then t.trimStart else t
  if ahead then t.trimEnd else t

namespace Layout

/-! ## Markers next to texts -/

/-- The texts of a row. -/
def writtenTexts : List Part → List Text
  | [] => []
  | .text t :: row => t :: writtenTexts row
  | .tag _ _ _ :: row => writtenTexts row
termination_by structural row => row

/-- The next part of a row is a tag that starts with a marker. -/
def markAhead : List Part → Bool
  | .tag _ before _ :: _ => before
  | _ => false

/-- The texts of a row, each trimmed by the markers next to it.  `behind` says
that there is one right before the row. -/
def markedTexts (behind : Bool) : List Part → List Text
  | [] => []
  | .text t :: row => t.trimMarked behind (markAhead row) :: markedTexts false row
  | .tag _ _ after :: row => markedTexts after row
termination_by structural row => row

/-! ## Markers that are handed on -/

/-- A block that is not closed yet. -/
structure OpenBlock where
  /-- The markers at the start of the opening tags of its links, the last one
  first. -/
  links : List Bool
  /-- Its else section has begun. -/
  ended : Bool
deriving DecidableEq, Repr

/-- The open blocks behind a tag. -/
def openedBehind (role : Role) (before : Bool) (opened : List OpenBlock) : List OpenBlock :=
  match role, opened with
  | .opening _, opened => ⟨[], false⟩ :: opened
  | .link, b :: opened => { b with links := before :: b.links } :: opened
  | .middle, b :: opened => { b with ended := true } :: opened
  | .closing, _ :: opened => opened
  | _, opened => opened

/-- The marker at the start of the closing tag of the block around a row.
`depth` blocks of the row are open. -/
def closingMark (depth : Nat) : List Part → Bool
  | [] => false
  | .tag (.opening _) _ _ :: row => closingMark (depth + 1) row
  | .tag .closing before _ :: row =>
      match depth with
      | 0 => before
      | depth + 1 => closingMark depth row
  | _ :: row => closingMark depth row
termination_by structural row => row

/-- What a block or the last of its links takes for the marker of its closing
tag. -/
def closingMarker (closing : Bool) : List Bool → Bool
  | [] | [_] => closing
  | last :: _ :: _ => last

/-- The marker that the block around the last link hands to the main section of
this link. -/
def handedMarker (closing : Bool) : List Bool → Bool
  | [] => false
  | _ :: links => closingMarker closing links

/-- The marker that decides at the end of a text in front of a tag. -/
def decidingMarker (opened : List OpenBlock) (role : Role) (before : Bool) (ahead : List Part) :
    Bool :=
  match role, opened with
  | .link, b :: _ | .middle, b :: _ => before || handedMarker (closingMark 0 ahead) b.links
  | .closing, b :: _ =>
      closingMarker before b.links || (!b.ended && handedMarker before b.links)
  | _, _ => before

/-- A row with the markers that decide in place of those that are written. -/
def decidedRow (opened : List OpenBlock) : List Part → List Part
  | [] => []
  | .text t :: row => .text t :: decidedRow opened row
  | .tag role before after :: row =>
      .tag role (decidingMarker opened role before row) after ::
        decidedRow (openedBehind role before opened) row
termination_by structural row => row

theorem writtenTexts_decidedRow (opened : List OpenBlock) (row : List Part) :
    writtenTexts (decidedRow opened row) = writtenTexts row := by
  induction row generalizing opened with
  | nil => rfl
  | cons part row ih =>
      cases part with
      | text t => exact congrArg (List.cons t) (ih opened)
      | tag role before after => exact ih _

theorem closingMark_balanced {inner : Bool} {row : List Part} (h : Balanced inner row) (depth : Nat)
    (ahead : List Part) : closingMark depth (row ++ ahead) = closingMark depth ahead := by
  induction h generalizing depth ahead with
  | nil => rfl
  | text _ ih | leaf _ ih | link _ ih | middle _ ih => exact ih depth ahead
  | block _ _ ih ih' =>
      rw [List.cons_append, List.append_assoc]
      exact (ih (depth + 1) _).trans (ih' depth ahead)

/-- The closing tag behind the sections of a block. -/
theorem closingMark_closing {inner : Bool} {row : List Part} (h : Balanced inner row)
    (closing : Strip) (ahead : List Part) :
    closingMark 0 ((row ++ [closing.part .closing]) ++ ahead) = closing.before := by
  rw [List.append_assoc]
  exact closingMark_balanced h 0 _

/-! ## When the written markers decide -/

/-- The marker of the tag behind a text decides, or nothing depends on it: there
is no white space left at the end of the text. -/
def ownMarkerDecides (behind : Bool) (opened : List OpenBlock) (t : Text) : List Part → Bool
  | .tag role before _ :: ahead =>
      t.trimMarked behind true == t.trimMarked behind false ||
        decidingMarker opened role before ahead == before
  | _ => true

/-- The same for all texts of a row. -/
def ownMarkersDecide (behind : Bool) (opened : List OpenBlock) : List Part → Bool
  | [] => true
  | .text t :: row =>
      ownMarkerDecides behind opened t row && ownMarkersDecide false opened row
  | .tag role before after :: row =>
      ownMarkersDecide after (openedBehind role before opened) row
termination_by structural row => row

theorem trimMarked_eq_iff (behind x y : Bool) (t : Text) :
    t.trimMarked behind x = t.trimMarked behind y ↔
      (t.trimMarked behind true == t.trimMarked behind false || x == y) = true := by
  cases x <;> cases y <;> simp
  exact eq_comm

/-- The markers that decide leave the same of all texts as the written ones just
if they do so in front of every tag. -/
theorem markedTexts_decidedRow_iff (behind : Bool) (opened : List OpenBlock) (row : List Part) :
    markedTexts behind (decidedRow opened row) = markedTexts behind row ↔
      ownMarkersDecide behind opened row = true := by
  induction row generalizing behind opened with
  | nil => exact ⟨fun _ => rfl, fun _ => rfl⟩
  | cons part row ih =>
      cases part with
      | tag role before after => exact ih after _
      | text t =>
          show t.trimMarked behind (markAhead (decidedRow opened row)) ::
              markedTexts false (decidedRow opened row) =
            t.trimMarked behind (markAhead row) :: markedTexts false row ↔
              (ownMarkerDecides behind opened t row && ownMarkersDecide false opened row) = true
          rw [List.cons.injEq, ih false opened, Bool.and_eq_true]
          refine and_congr_left' ?_
          cases row with
          | nil => exact ⟨fun _ => rfl, fun _ => rfl⟩
          | cons part' ahead =>
              cases part' with
              | text t' => exact ⟨fun _ => rfl, fun _ => rfl⟩
              | tag role before after => exact trimMarked_eq_iff behind _ before t

end Layout
end Stache
