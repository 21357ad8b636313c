import Stache.Failure
import Stache.Parse
import Stache.Settings.Value

/-!
# Settings

The choices about parsing that a configuration can make.  All of them stand in
its `parser` section, and each has a default, so an empty configuration is a
valid one.
-/

namespace Stache

/-- What brackets inside tags are. -/
inductive BracketMode where
  /-- A literal segment of a path. -/
  | segment
  /-- A list, outside of a path. -/
  | list
deriving DecidableEq, Repr, Inhabited

namespace BracketMode

/-- The mode with a given name in a configuration. -/
def ofName? : String → Option BracketMode
  | "string" => some .segment
  | "node" => some .list
  | _ => none

/-- The reading of brackets that a mode stands for. -/
def brackets : BracketMode → BracketSyntax
  | .segment => .segment
  | .list => .list

end BracketMode

/-- The settings of the parser. -/
structure Settings where
  /-- The padding around tags that stand alone stays. -/
  ignoreStandalone : Bool := false
  /-- What brackets are. -/
  brackets : BracketMode := .segment
  /-- The name that every location carries. -/
  sourceName : Option String := none
deriving DecidableEq, Repr, Inhabited

namespace Settings

/-! ## Reading a configuration -/

/-- A field of a section.  One that is missing has its default. -/
def field {α : Type} (read : Value → Option α) (default : α) : Option Value → Option α
  | none => some default
  | some v => read v

/-- The settings of a `parser` section. -/
def ofSection? (f : Value.Format) (v : Value) : Option Settings :=
  match v.fields? f ["ignore_standalone", "square", "source_name"] with
  | some [ignore, square, name] => do
      let ignore ← field Value.boolean? false ignore
      let square ← field (fun v => (v.choice? f).bind BracketMode.ofName?) .segment square
      let name ← field Value.optionalString? none name
      return ⟨ignore, square, name⟩
  | _ => none

/-- The settings of a configuration, if every known entry of it fits. -/
def ofValue? (f : Value.Format) (v : Value) : Option Settings :=
  match v.fields? f ["parser"] with
  | some [parser] => field (ofSection? f) {} parser
  | _ => none

/-! ## Parsing with settings -/

/-- The settings with another source name, if there is one. -/
def named (s : Settings) (name : Option String) : Settings :=
  { s with sourceName := name.or s.sourceName }

/-- The options that the settings stand for. -/
def options (s : Settings) : Options :=
  { sourceName := s.sourceName
    brackets := s.brackets.brackets
    ignoreStandalone := s.ignoreStandalone }

/-- The tree of a template.  `raw` keeps its whitespace as it is written. -/
def parse (s : Settings) (raw : Bool) (text : Text) : Except Failure Program :=
  match if raw then parseRaw s.options text else Stache.parse s.options text with
  | .ok p => .ok p
  | .error failure => .error (.parse failure text)

end Settings

end Stache
