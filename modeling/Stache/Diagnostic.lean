import Stache.Source.Position

/-!
# Diagnostics

A diagnostic is a message with a severity, an optional code, labelled places in
the source and an optional hint.  Its one-line form ends with the start of its
first primary label.  A failed parse carries a list of diagnostics.
-/

namespace Stache

/-- How serious a diagnostic is. -/
inductive Severity where
  /-- A tree was still produced. -/
  | warning
  /-- No tree could be produced. -/
  | error
deriving DecidableEq, Repr, Inhabited

namespace Severity

/-- The word for a severity. -/
def name : Severity → String
  | .warning => "warning"
  | .error => "error"

/-- The more serious of two. -/
def worse : Severity → Severity → Severity
  | .warning, .warning => .warning
  | _, _ => .error

/-- The most serious of a list, if it is not empty. -/
def worst? : List Severity → Option Severity
  | [] => none
  | s :: rest => some (rest.foldl worse s)

end Severity

/-- What a diagnostic is about. -/
inductive Code where
  /-- A character inside a tag that starts no token. -/
  | unexpectedCharacter
  | unterminatedComment
  | unterminatedString
  /-- A raw block that is never closed. -/
  | unterminatedRawBlock
  | unexpectedToken
  /-- The template ends inside a tag or a block. -/
  | incompleteInput
  /-- `..`, `.` or `this` after a named segment. -/
  | invalidPath
  | mismatchedClose
  /-- A block opened with something that is not a path. -/
  | openNotPath
  /-- An else section on a decorator block. -/
  | inverseOnDecorator
  /-- An else chain that continues with something that is not a block. -/
  | brokenChain
  /-- An edit removed a node that its parent needs. -/
  | requiredRemoved
  /-- An edit put a node where its kind does not fit. -/
  | unexpectedReplacement
deriving DecidableEq, Repr, Inhabited

namespace Code

/-- Every code, in order. -/
def all : List Code :=
  [.unexpectedCharacter, .unterminatedComment, .unterminatedString, .unterminatedRawBlock,
    .unexpectedToken, .incompleteInput, .invalidPath, .mismatchedClose, .openNotPath,
    .inverseOnDecorator, .brokenChain, .requiredRemoved, .unexpectedReplacement]

/-- The short name of a code.  The first digit is the stage that reports it. -/
def id : Code → String
  | .unexpectedCharacter => "E001"
  | .unterminatedComment => "E002"
  | .unterminatedString => "E003"
  | .unterminatedRawBlock => "E004"
  | .unexpectedToken => "E100"
  | .incompleteInput => "E101"
  | .invalidPath => "E200"
  | .mismatchedClose => "E201"
  | .openNotPath => "E202"
  | .inverseOnDecorator => "E203"
  | .brokenChain => "E204"
  | .requiredRemoved => "E300"
  | .unexpectedReplacement => "E301"

/-- What a code means. -/
def description : Code → String
  | .unexpectedCharacter => "unexpected character"
  | .unterminatedComment => "unterminated comment"
  | .unterminatedString => "unterminated string literal"
  | .unterminatedRawBlock => "unterminated raw block"
  | .unexpectedToken => "unexpected token"
  | .incompleteInput => "incomplete input"
  | .invalidPath => "invalid path"
  | .mismatchedClose => "mismatched close tag"
  | .openNotPath => "block open is not a path"
  | .inverseOnDecorator => "inverse section on decorator"
  | .brokenChain => "malformed else chain"
  | .requiredRemoved => "required child removed"
  | .unexpectedReplacement => "unexpected visitor return"

/-- The code with a given short name. -/
def ofId? (name : String) : Option Code := all.find? fun c => c.id == name

/-- The code only says that the text stops too early. -/
def isIncomplete : Code → Bool
  | .unterminatedComment | .unterminatedString | .unterminatedRawBlock | .incompleteInput => true
  | _ => false

end Code

/-- A message on a place of the source. -/
structure Label where
  /-- It marks the fault itself and not its surroundings. -/
  primary : Bool
  loc : Location
  message : String
deriving DecidableEq, Repr, Inhabited

/-- A fault or a remark about a template. -/
structure Diagnostic where
  severity : Severity := .error
  code : Option Code := none
  message : String
  /-- The labelled places, in order. -/
  labels : List Label := []
  help : Option String := none
deriving DecidableEq, Repr, Inhabited

namespace Diagnostic

/-- An error with a code, a message and one primary label. -/
def error (code : Code) (message : String) (loc : Location) (label : String)
    (help : Option String) : Diagnostic :=
  { code := some code, message := message, labels := [⟨true, loc, label⟩], help := help }

/-- The diagnostic with one more label, which is not primary. -/
def withSecondary (d : Diagnostic) (loc : Location) (label : String) : Diagnostic :=
  { d with labels := d.labels ++ [⟨false, loc, label⟩] }

/-- The place of the first primary label. -/
def location? (d : Diagnostic) : Option Location :=
  (d.labels.find? Label.primary).map Label.loc

/-- `severity[CODE]: message - line:column`, without the parts it lacks. -/
def display (d : Diagnostic) : String :=
  let code :=
    match d.code with
    | some c => "[" ++ c.id ++ "]"
    | none => ""
  let place :=
    match d.location? with
    | some loc => " - " ++ loc.start.display
    | none => ""
  d.severity.name ++ code ++ ": " ++ d.message ++ place

end Diagnostic

/-- Why a template could not be parsed. -/
structure ParseFailure where
  /-- The diagnostics, first found first. -/
  diagnostics : List Diagnostic
deriving DecidableEq, Repr, Inhabited

namespace ParseFailure

/-- The failure with one diagnostic. -/
def one (d : Diagnostic) : ParseFailure := ⟨[d]⟩

/-- Parsing failed only because the text stops too early. -/
def isIncomplete (f : ParseFailure) : Bool :=
  !f.diagnostics.isEmpty && f.diagnostics.all fun d => d.code.any Code.isIncomplete

/-- The first diagnostic and the number of the others. -/
def display (f : ParseFailure) : String :=
  match f.diagnostics with
  | [] => "template could not be parsed"
  | [d] => d.display
  | d :: rest => d.display ++ " (+" ++ toString rest.length ++ " more)"

end ParseFailure

end Stache
