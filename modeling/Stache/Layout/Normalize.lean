import Stache.Layout.Edge
import Stache.Options

/-!
# Whitespace control

The pass goes through the tree from the inside out.  In each list of statements
it takes three steps.

* Settle.  The bodies of every block are normalized, then trimmed at the tags
  inside the block.  The block reports how its outer tags trim and whether the
  texts inside let them stand alone.
* Judge.  With the texts on either side, each tag gets a verdict: which trims it
  makes before itself, behind itself and inside its block.
* Align.  Each text is trimmed as the tag before it says, then as the tag after
  it says.  A partial that stands alone takes the padding removed before it as
  its indent.

A text touches one tag on each side, so the third step looks at neighbours
only.  `Control.normalize` takes the first program it ever sees for the root of
a template, and a later one for the body of a block.
-/

namespace Stache
namespace Layout

/-! ## Verdicts -/

/-- The trims a tag makes. -/
structure Verdict where
  /-- All white space before it goes. -/
  allBefore : Bool
  /-- All white space behind it goes. -/
  allAfter : Bool
  /-- It stands alone as a whole. -/
  inlineAlone : Bool
  /-- The opening tag of the block stands alone. -/
  openAlone : Bool
  /-- The closing tag of the block stands alone. -/
  closeAlone : Bool
deriving DecidableEq, Repr

namespace Verdict

/-- The padding before the tag goes. -/
def lineBefore (v : Verdict) : Bool := v.inlineAlone || v.openAlone

/-- The padding behind the tag and the line break go. -/
def lineAfter (v : Verdict) : Bool := v.inlineAlone || v.closeAlone

end Verdict

/-- The verdict on a tag that reports `strip`, between `before`, the nearest
first, and `after`. -/
def judge (ignoreStandalone root : Bool) (strip : Strip) (before after : List Statement) :
    Verdict :=
  let ends := lineEnds root before
  let starts := lineStarts root after
  { allBefore := strip.before
    allAfter := strip.after
    inlineAlone := !ignoreStandalone && strip.inlineStandalone && ends && starts
    openAlone := !ignoreStandalone && strip.openStandalone && ends
    closeAlone := !ignoreStandalone && strip.closeStandalone && starts }

/-- A statement and the strip flags it reports.  Text reports none. -/
abbrev Settled := Statement × Option Strip

/-- A statement and the verdict on it.  Text has none. -/
abbrev Judged := Statement × Option Verdict

/-- The verdicts on a list of statements that follows `before`. -/
def judgeAll (ignoreStandalone root : Bool) (before : List Statement) :
    List Settled → List Judged
  | [] => []
  | (s, strip) :: rest =>
      (s, strip.map fun f => judge ignoreStandalone root f before (rest.map Prod.fst)) ::
        judgeAll ignoreStandalone root (s :: before) rest
termination_by structural settled => settled

/-! ## Trims between neighbours -/

/-- The text behind a tag. -/
def afterTag (tag : Option Verdict) (c : Content) : Content :=
  match tag with
  | none => c
  | some v =>
      let c := if v.allAfter then c.trimStart else c
      if v.lineAfter then c.trimLine else c

/-- The text before a tag. -/
def beforeTag (tag : Option Verdict) (c : Content) : Content :=
  match tag with
  | none => c
  | some v =>
      let c := if v.allBefore then c.trimEnd else c
      if v.lineBefore then c.trimPadding else c

/-- The indent of a partial behind a text: the padding that its own trim
removes, if it removes any. -/
def indentAfter (v : Verdict) (c : Content) (indent : Text) : Text :=
  let c := if v.allBefore then c.trimEnd else c
  if v.inlineAlone && !c.leftStripped && c.value.trimPadding.length != c.value.length then
    c.written.padding
  else indent

/-- The trims of an opening tag that stands alone, in the first section of its
block. -/
def openSection (program inverse : Option Program) : Option Program × Option Program :=
  match program with
  | some p => (some (onBody (onFirst Content.trimLine) p), inverse)
  | none => (none, inverse.map (onBody (onFirst Content.trimLine)))

/-- The trims of a closing tag that stands alone, in the last section of its
block. -/
def closeSection (program inverse : Option Program) : Option Program × Option Program :=
  match inverse with
  | some p => (program, some (onBody (onLast Content.trimPadding) p))
  | none => (program.map (onBody (onLast Content.trimPadding)), none)

/-- The trims of the tags of a block that stand alone, inside of it. -/
def insideSections (v : Verdict) (program inverse : Option Program) :
    Option Program × Option Program :=
  let (program, inverse) :=
    if v.openAlone then openSection program inverse else (program, inverse)
  if v.closeAlone then closeSection program inverse else (program, inverse)

/-- The same for the body of a partial. -/
def insideBody (v : Verdict) (p : Program) : Program :=
  let p := if v.openAlone then onBody (onFirst Content.trimLine) p else p
  if v.closeAlone then onBody (onLast Content.trimPadding) p else p

/-- A tag with its verdict carried out inside of it.  `text` is the text before
it. -/
def finish (text : Option Content) (v : Verdict) : Statement → Statement
  | .inclusion node =>
      match text with
      | some c => .inclusion { node with indent := indentAfter v c node.indent }
      | none => .inclusion node
  | .block node =>
      let (program, inverse) := insideSections v node.program node.inverse
      .block { node with program := program, inverse := inverse }
  | .decoratorBlock node =>
      let (program, inverse) := insideSections v node.program node.inverse
      .decoratorBlock { node with program := program, inverse := inverse }
  | .inclusionBlock node => .inclusionBlock { node with program := insideBody v node.program }
  | other => other

/-- The verdicts carried out.  `tag` is the tag right before the list and
`text` the text right before it, with its own start already trimmed. -/
def align (tag : Option Verdict) (text : Option Content) : List Judged → List Statement
  | [] => []
  | (.content c, _) :: rest =>
      let c := afterTag tag c
      .content (beforeTag (rest.head?.bind Prod.snd) c) :: align none (some c) rest
  | (s, none) :: rest => s :: align none none rest
  | (s, some v) :: rest => finish text v s :: align (some v) none rest
termination_by structural judged => judged

/-! ## The tags inside a block -/

/-- The first section of a block, trimmed at the opening tag and at the tag that
ends it.  `alone` says that an else tag ends it and stands alone. -/
def trimMain (opening ender : Strip) (alone : Bool) (p : Program) : Program :=
  let p := if opening.after then onBody (onFirst Content.trimStart) p else p
  let p := if ender.before then onBody (onLast Content.trimEnd) p else p
  if alone then onBody (onLast Content.trimPadding) p else p

/-- The else section of a block, trimmed at the else tag and at the closing
tag.  `alone` says that the else tag stands alone. -/
def trimElse (middle closing : Strip) (alone : Bool) (q : Program) : Program :=
  let q := if middle.after then onFirstSection (onFirst Content.trimStart) q else q
  let q := if closing.before then onLastSection (onLast Content.trimEnd) q else q
  if alone then onFirstSection (onFirst Content.trimLine) q else q

/-- An else tag between the sections `p` and `q` stands alone. -/
def elseAlone (p q : Program) : Bool :=
  lineEnds false p.body.reverse && (firstSection? q).any (lineStarts false)

/-- What a block with a first section `p` reports. -/
def report (opening closing : Strip) (p : Program) (inverse : Option Program) : Strip :=
  let lastBody := (inverse.bind firstSection?).getD p.body
  { before := opening.before
    after := closing.after
    openStandalone := lineStarts false p.body
    closeStandalone := lineEnds false lastBody.reverse }

/-- The trims at the tags inside a block with a first section `p`, and what the
block reports. -/
def trimSections (ignoreStandalone : Bool) (opening middle closing : Strip) (p : Program)
    (inverse : Option Program) : Program × Option Program × Strip :=
  let strip := report opening closing p inverse
  match inverse with
  | none => (trimMain opening closing false p, none, strip)
  | some q =>
      let alone := !ignoreStandalone && elseAlone p q
      (trimMain opening middle alone p, some (trimElse middle closing alone q), strip)

/-- The same for a block that may lack its main section. -/
def trimBlock (ignoreStandalone : Bool) (opening middle closing : Strip)
    (program inverse : Option Program) : Option Program × Option Program × Strip :=
  match program, inverse with
  | some p, inverse =>
      let (p, inverse, strip) := trimSections ignoreStandalone opening middle closing p inverse
      (some p, inverse, strip)
  | none, some q =>
      let (q, _, strip) := trimSections ignoreStandalone opening middle closing q none
      (none, some q, strip)
  | none, none => (none, none, { before := opening.before, after := closing.after })

/-- Partials and comments may stand alone on a line. -/
def inlineStrip (strip : Strip) : Strip :=
  { before := strip.before, after := strip.after, inlineStandalone := true }

/-! ## The pass -/

mutual

/-- A program with its whitespace normalized.  `root` says that it is a whole
template. -/
def program (ignoreStandalone root : Bool) : Program → Program
  | ⟨body, blockParams, chained, loc⟩ =>
      let judged := judgeAll ignoreStandalone root [] (settleAll ignoreStandalone body)
      ⟨align none none judged, blockParams, chained, loc⟩

/-- The statements of a list, settled. -/
def settleAll (ignoreStandalone : Bool) : List Statement → List Settled
  | [] => []
  | s :: rest => settle ignoreStandalone s :: settleAll ignoreStandalone rest

/-- A statement with its bodies normalized, and what it reports. -/
def settle (ignoreStandalone : Bool) : Statement → Settled
  | .mustache node => (.mustache node, some node.strip)
  | .decorator node => (.decorator node, some node.strip)
  | .inclusion node => (.inclusion node, some (inlineStrip node.strip))
  | .comment node => (.comment node, some (inlineStrip node.strip))
  | .content node => (.content node, none)
  | .block ⟨call, main, inverse, opening, middle, closing, loc⟩ =>
      let (main, inverse, strip) :=
        trimBlock ignoreStandalone opening middle closing (bodyOf ignoreStandalone main)
          (bodyOf ignoreStandalone inverse)
      (.block ⟨call, main, inverse, opening, middle, closing, loc⟩, some strip)
  | .decoratorBlock ⟨call, main, inverse, opening, middle, closing, loc⟩ =>
      let (main, inverse, strip) :=
        trimBlock ignoreStandalone opening middle closing (bodyOf ignoreStandalone main)
          (bodyOf ignoreStandalone inverse)
      (.decoratorBlock ⟨call, main, inverse, opening, middle, closing, loc⟩, some strip)
  | .inclusionBlock ⟨call, main, opening, closing, loc⟩ =>
      let (main, _, strip) :=
        trimSections ignoreStandalone opening {} closing (program ignoreStandalone false main) none
      (.inclusionBlock ⟨call, main, opening, closing, loc⟩, some strip)

/-- A section of a block, normalized. -/
def bodyOf (ignoreStandalone : Bool) : Option Program → Option Program
  | none => none
  | some p => some (program ignoreStandalone false p)

end

/-- Whitespace control with a memory: only the first program is a root. -/
structure Control where
  /-- Tags that stand alone keep their padding. -/
  ignoreStandalone : Bool := false
  /-- A program was normalized before. -/
  rootSeen : Bool := false
deriving DecidableEq, Repr

/-- One run over a program, and the control after it. -/
def Control.normalize (c : Control) (p : Program) : Program × Control :=
  (program c.ignoreStandalone (!c.rootSeen) p, { c with rootSeen := true })

end Layout

/-- A template with its whitespace normalized. -/
def normalize (options : Options) (p : Program) : Program :=
  (({ ignoreStandalone := options.ignoreStandalone } : Layout.Control).normalize p).1

end Stache
