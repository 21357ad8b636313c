import Stache.Command.Arguments
import Stache.Command.Environment
import Stache.Report
import Stache.Settings
import Stache.Settings.Toml
import Stache.Traversal.Printer

/-!
# Running the program

A run settles the configuration, reads the template, parses it and writes its
canonical text to a file or to the standard output.

The settings come from the first of these files that exists: the one that the
arguments name, which must exist, the one in the working folder, and the user's
own.  Without any of them the defaults hold.  The switch for padding can only be
turned on by the arguments, and the path of the input names the source unless
the file does.
-/

namespace Stache
namespace Command

variable {m : Type → Type} [Monad m] (env : Environment m)

/-- The configuration file of the working folder. -/
def localConfig : String := "curlew/config.toml"

/-! ## Configuration -/

/-- The settings in a configuration file. -/
def readSettings (path : String) : m (Except ConfigError Settings) := do
  match ← env.readText path with
  | .error reason => return .error (.unreadable path reason)
  | .ok text =>
      match (Toml.read? text.toList).bind (Settings.ofValue? .toml) with
      | some s => return .ok s
      | none => return .error (.unreadable path "it is not a valid configuration")

/-- The configuration file that is used where the arguments name none. -/
def findConfig : m (Option String) := do
  if ← env.present localConfig then return some localConfig
  match env.userConfig with
  | none => return none
  | some path => return if ← env.present path then some path else none

/-- The settings in the configuration file that applies. -/
def loadSettings (config : Option String) : m (Except ConfigError Settings) := do
  match config with
  | some path =>
      if ← env.present path then readSettings env path else return .error (.missing path)
  | none =>
      match ← findConfig env with
      | some path => readSettings env path
      | none => return .ok {}

/-- The settings of a file with what the arguments change about them. -/
def settingsFor (a : Arguments) (s : Settings) : Settings :=
  { s with
    ignoreStandalone := s.ignoreStandalone || a.ignoreStandalone
    sourceName := some (s.sourceName.getD a.input) }

/-! ## A run -/

/-- The canonical text of a template. -/
def renderTemplate (s : Settings) (raw : Bool) (text : Text) : Except Failure String :=
  (s.parse raw text).map Program.print

/-- A run with given arguments.  The result goes to the standard output. -/
def process (a : Arguments) : m (Except Failure String) := do
  match ← loadSettings env a.config with
  | .error e => return .error (.config e)
  | .ok s =>
      match ← env.readText a.input with
      | .error reason => return .error (.io reason)
      | .ok text =>
          match renderTemplate (settingsFor a s) a.raw text.toList with
          | .error f => return .error f
          | .ok printed =>
              match a.output with
              | none => return .ok printed
              | some path =>
                  match ← env.writeText path printed with
                  | .error reason => return .error (.io reason)
                  | .ok () => return .ok ""

/-! ## A whole command line -/

/-- What a command line leads to. -/
structure Outcome where
  status : Nat
  /-- The text on the standard output. -/
  output : String := ""
  /-- The text on the standard error output. -/
  messages : String := ""
deriving DecidableEq, Repr

/-- The exit status of a failed run: bad data, a failed file access, or a bad
configuration. -/
def exitStatus : Failure → Nat
  | .parse _ _ => 65
  | .io _ => 74
  | .config _ => 78

/-- The name and the version of the program. -/
def version : String := "curlew-cli 0.1.0"

/-- How the program is used. -/
def usage : String :=
  "Usage: curlew [OPTIONS] <INPUT>\n\n" ++
  "  -o, --output <OUTPUT>        Path to write the printed tree to (stdout when absent)\n" ++
  "  -c, --config <CONFIG>        Path to configuration file (TOML)\n" ++
  "      --log-level <LOG_LEVEL>  Log level (off, error, warn, info, debug, trace)\n" ++
  "      --raw                    Print the tree as parsed, without whitespace normalization\n" ++
  "      --ignore-standalone      Keep the padding around standalone tags\n" ++
  "  -h, --help                   Print help\n" ++
  "  -V, --version                Print version\n"

/-- The messages of a failed run, one on a line. -/
def messages (f : Failure) : String := String.join (f.reports.map fun r => r.message ++ "\n")

/-- A run of the whole program. -/
def run (words : List String) : m Outcome := do
  match Arguments.read words with
  | .error e => return { status := 2, messages := e.message ++ "\n" }
  | .ok .version => return { status := 0, output := version ++ "\n" }
  | .ok .help => return { status := 0, output := usage }
  | .ok (.process a) =>
      match ← process env a with
      | .ok printed => return { status := 0, output := printed }
      | .error f => return { status := exitStatus f, messages := messages f }

end Command
end Stache
