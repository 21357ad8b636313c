import Stache.Failure
import Stache.Source.Lines

/-!
# Reports

A report is a failure made ready to be shown beside its source.  Diagnostics
locate their labels by line and column, and what draws them wants byte ranges.
A label that starts outside of the source has no range and is left out.  One
that only ends outside, or that ends before it starts, marks its start.
-/

namespace Stache

/-- A byte range of the source, with a message. -/
structure Mark where
  span : Span
  message : String
  /-- It marks the fault itself. -/
  primary : Bool
deriving DecidableEq, Repr

/-- A failure, ready to be shown. -/
structure Report where
  message : String
  code : Option String := none
  help : Option String := none
  /-- The source goes with the report. -/
  showsSource : Bool := false
  /-- Another error is behind it. -/
  hasCause : Bool := false
  /-- The marks, unless there was nothing to mark. -/
  marks : Option (List Mark) := none
deriving DecidableEq, Repr

namespace Report

/-- The bytes of a location, if it starts inside the text. -/
def range? (text : Text) (loc : Location) : Option Span :=
  (Source.offset text loc.start).map fun start =>
    ⟨start, max start ((Source.offset text loc.stop).getD start)⟩

/-- The mark of a label. -/
def mark? (text : Text) (l : Label) : Option Mark :=
  (range? text l.loc).map fun span => ⟨span, l.message, l.primary⟩

/-- The report of a diagnostic on a text. -/
def ofDiagnostic (text : Text) (d : Diagnostic) : Report :=
  { message := d.message
    code := d.code.map Code.id
    help := d.help
    showsSource := true
    marks := if d.labels.isEmpty then none else some (d.labels.filterMap (mark? text)) }

end Report

/-- The reports of a failure: one for each diagnostic, or a single one. -/
def Failure.reports (f : Failure) : List Report :=
  match f with
  | .parse failure text => failure.diagnostics.map (Report.ofDiagnostic text)
  | .io _ => [{ message := f.display, code := some "curlew::io", hasCause := true }]
  | .config _ => [{ message := f.display, code := some "curlew::config" }]

end Stache
