import Stache.Diagnostic
import Stache.Text

/-!
# Failures

What can go wrong between the name of a template and its tree: a file cannot be
read or written, the configuration is refused, or the template does not parse.
A parse failure keeps the text, because its report shows parts of it.
-/

namespace Stache

/-- Why a configuration is refused. -/
inductive ConfigError where
  /-- A configuration file cannot be read or is malformed. -/
  | unreadable (path reason : String)
  /-- The configuration file that was asked for does not exist. -/
  | missing (path : String)
  | invalid (reason : String)
deriving DecidableEq, Repr

/-- The message of an error. -/
def ConfigError.message : ConfigError → String
  | .unreadable path reason => "cannot read " ++ path ++ ": " ++ reason
  | .missing path => "Missing configuration file: " ++ path
  | .invalid reason => reason

/-- Why there is no tree. -/
inductive Failure where
  | parse (failure : ParseFailure) (text : Text)
  /-- A file cannot be read or written. -/
  | io (reason : String)
  | config (error : ConfigError)
deriving DecidableEq, Repr

namespace Failure

/-- The message of a failure. -/
def display : Failure → String
  | .parse failure _ => failure.display
  | .io reason => "I/O error: " ++ reason
  | .config error => "Configuration error: " ++ error.message

/-- The diagnostics of a failure.  Only a parse failure has any. -/
def diagnostics : Failure → List Diagnostic
  | .parse failure _ => failure.diagnostics
  | .io _ | .config _ => []

end Failure

end Stache
