import Stache.Command.Run

/-!
# The program

The environment of a run is the machine's own disk.
-/

namespace Stache

/-- A file access, with the reason when it fails. -/
def attempt {α : Type} (action : IO α) : IO (Except String α) := do
  match ← action.toBaseIO with
  | .ok a => return .ok a
  | .error e => return .error (toString e)

/-- The user's configuration file. -/
def userConfig : IO (Option String) := do
  match ← IO.getEnv "XDG_CONFIG_HOME" with
  | some folder => return some (folder ++ "/curlew/config.toml")
  | none => return (← IO.getEnv "HOME").map fun home => home ++ "/.config/curlew/config.toml"

/-- The machine's own disk. -/
def machine (userConfig : Option String) : Environment IO where
  present path := do
    match ← attempt (IO.FS.realPath path) with
    | .ok _ => return true
    | .error _ => return false
  readText path := attempt (IO.FS.readFile path)
  writeText path text := attempt (IO.FS.writeFile path text)
  userConfig := userConfig

end Stache

/-- Runs the program on its arguments. -/
def main (arguments : List String) : IO UInt32 := do
  let outcome ← Stache.Command.run (Stache.machine (← Stache.userConfig)) arguments
  (← IO.getStdout).putStr outcome.output
  (← IO.getStderr).putStr outcome.messages
  return outcome.status.toUInt32
